import Kyria.Lib.Layers
import Kyria.Protocol
import Kyria.Text

/-!
How a node gets its configuration (`cmd/kyria/config.go`): from the command line, from the
environment for what is not set there, and from the defaults for the rest.
-/

namespace Kyria.Flags

open Kyria.Lib.Cursor Kyria.Lib.Layers Kyria.Protocol Kyria.Text

/-! ### The flags -/

inductive Flag
  | addr
  | shards
  | maxConns
  | connTimeout
  | logLevel
  | eviction
  | maxEntries
  | maxValueSize
  | maxKeySize
  | reapInterval
  | gossipAddr
  | seeds
  | gossipInterval
  | failTimeout
  | fanout
  | replicas
  | rebuildInterval
  | replicationFactor
  | readQuorum
  | writeQuorum
  | replicaTimeout
  | hintReplayerInterval
  | antiEntropyInterval
  | tombstoneGrace
  | tombstoneGCInterval
  deriving DecidableEq

inductive Kind
  | text
  | int
  /-- In nanoseconds. -/
  | duration

abbrev Kind.Value : Kind → Type
  | .text => Bytes
  | .int | .duration => ℤ

namespace Flag

def name : Flag → Bytes
  | addr => ascii "addr"
  | shards => ascii "shards"
  | maxConns => ascii "max-conns"
  | connTimeout => ascii "conn-timeout"
  | logLevel => ascii "log-level"
  | eviction => ascii "eviction"
  | maxEntries => ascii "max-entries"
  | maxValueSize => ascii "max-value-size"
  | maxKeySize => ascii "max-key-size"
  | reapInterval => ascii "reap-interval"
  | gossipAddr => ascii "gossip-addr"
  | seeds => ascii "seeds"
  | gossipInterval => ascii "gossip-interval"
  | failTimeout => ascii "fail-timeout"
  | fanout => ascii "fanout"
  | replicas => ascii "replicas"
  | rebuildInterval => ascii "rebuild-interval"
  | replicationFactor => ascii "replication-factor"
  | readQuorum => ascii "read-quorum"
  | writeQuorum => ascii "write-quorum"
  | replicaTimeout => ascii "replica-timeout"
  | hintReplayerInterval => ascii "hint-replayer-interval"
  | antiEntropyInterval => ascii "anti-entropy-interval"
  | tombstoneGrace => ascii "tombstone-grace"
  | tombstoneGCInterval => ascii "tombstone-gc-interval"

abbrev kind : Flag → Kind
  | addr | logLevel | eviction | gossipAddr | seeds => .text
  | shards | maxConns | maxEntries | maxValueSize | maxKeySize | fanout | replicas
  | replicationFactor | readQuorum | writeQuorum => .int
  | connTimeout | reapInterval | gossipInterval | failTimeout | rebuildInterval | replicaTimeout
  | hintReplayerInterval | antiEntropyInterval | tombstoneGrace | tombstoneGCInterval => .duration

/-- The variable of the environment. -/
def envKey (f : Flag) : Bytes :=
  ascii "KYRIA_" ++ toUpper (f.name.map fun c => if c = 45 then 95 else c)

end Flag

abbrev Values := (f : Flag) → f.kind.Value

def second : ℤ := 1000000000

def defaults : Values
  | .addr => ascii ":6379"
  | .shards => (32 : ℤ)
  | .maxConns => (0 : ℤ)
  | .connTimeout => (0 : ℤ)
  | .logLevel => ascii "info"
  | .eviction => ascii "none"
  | .maxEntries => (0 : ℤ)
  | .maxValueSize => (0 : ℤ)
  | .maxKeySize => (0 : ℤ)
  | .reapInterval => second
  | .gossipAddr => ([] : Bytes)
  | .seeds => ([] : Bytes)
  | .gossipInterval => (0 : ℤ)
  | .failTimeout => (0 : ℤ)
  | .fanout => (0 : ℤ)
  | .replicas => (100 : ℤ)
  | .rebuildInterval => second
  | .replicationFactor => (3 : ℤ)
  | .readQuorum => (2 : ℤ)
  | .writeQuorum => (2 : ℤ)
  | .replicaTimeout => 2 * second
  | .hintReplayerInterval => second
  | .antiEntropyInterval => (0 : ℤ)
  | .tombstoneGrace => (0 : ℤ)
  | .tombstoneGCInterval => (0 : ℤ)

/-- All flags, in the order of their names: `VisitAll` goes by that. -/
def visitAll : List Flag :=
  [.addr, .antiEntropyInterval, .connTimeout, .eviction, .failTimeout, .fanout, .gossipAddr,
    .gossipInterval, .hintReplayerInterval, .logLevel, .maxConns, .maxEntries, .maxKeySize,
    .maxValueSize, .readQuorum, .reapInterval, .rebuildInterval, .replicaTimeout, .replicas,
    .replicationFactor, .seeds, .shards, .tombstoneGCInterval, .tombstoneGrace, .writeQuorum]

lemma mem_visitAll (f : Flag) : f ∈ visitAll := by cases f <;> decide

lemma pairwise_visitAll : visitAll.Pairwise fun f g => f.name < g.name := by decide +kernel

lemma nodup_names : (visitAll.map Flag.name).Nodup := by
  refine List.pairwise_map.mpr (pairwise_visitAll.imp fun hlt heq => ?_)
  exact List.lt_irrefl _ (heq ▸ hlt)

lemma name_injective : Function.Injective Flag.name := fun f g h =>
  List.inj_on_of_nodup_map nodup_names (mem_visitAll f) (mem_visitAll g) h

/-! ### Reading values -/

/-- What `parseFlags` leaves to the standard library. -/
structure Library where
  /-- `strconv.ParseInt`, with the base taken from the text. -/
  parseInt : Bytes → Option ℤ
  parseDuration : Bytes → Option ℤ
  /-- `Level.UnmarshalText`. -/
  level : Bytes → Option ℤ
  /-- The host that `net.SplitHostPort` finds. -/
  host : Bytes → Option Bytes
  /-- `net.ParseIP` finds an unspecified address. -/
  unspecified : Bytes → Bool

def Kind.read (L : Library) : (k : Kind) → Bytes → Option k.Value
  | .text, v => some v
  | .int, v => L.parseInt v
  | .duration, v => L.parseDuration v

def read (L : Library) (f : Flag) (v : Bytes) : Option f.kind.Value := f.kind.read L v

/-! ### The command line -/

inductive Error
  /-- `bad flag syntax`. -/
  | badSyntax (word : Bytes)
  | help
  /-- `flag provided but not defined`. -/
  | notDefined (name : Bytes)
  /-- `flag needs an argument`. -/
  | needsArgument (f : Flag)
  /-- `invalid value` of a flag on the command line. -/
  | invalidValue (f : Flag) (v : Bytes)
  /-- The same, of a variable of the environment. -/
  | environment (f : Flag) (v : Bytes)
  | unknownLogLevel (v : Bytes)
  | unknownEviction (v : Bytes)
  /-- An address that cannot be split into host and port. -/
  | address (f : Flag) (v : Bytes)
  /-- `needs a routable host when clustering is enabled`. -/
  | unroutable (f : Flag) (v : Bytes)
  /-- `-eviction` needs `-max-entries > 0`. -/
  | needsMaxEntries (eviction : Bytes)
  | maxConns (n : ℤ)
  | replicationFactor (n : ℤ)
  | readQuorum (n r : ℤ)
  | writeQuorum (n w : ℤ)
  /-- `-tombstone-gc-interval` needs `-tombstone-grace > 0`. -/
  | needsGrace
  deriving DecidableEq

/-- What a word of the command line is to `FlagSet.parseOne`. -/
inductive Word
  /-- No flag: the rest is left alone. -/
  | stop
  /-- `-name=value`. -/
  | joined (f : Flag) (v : Bytes)
  /-- `-name`: the value is the next word. -/
  | alone (f : Flag)

/-- What follows the name, from the equals sign on. -/
def Word.of (f : Flag) : Bytes → Word
  | [] => .alone f
  | _ :: v => .joined f v

/-- A word that begins with dashes, without them. -/
def flagWord (word name : Bytes) : Except Error Word :=
  if name.head? = some 45 ∨ name.head? = some 61 then .error (.badSyntax word)
  else
    let key := name.takeWhile (· ≠ 61)
    match visitAll.find? (·.name = key) with
    | none =>
      .error (if key = ascii "help" ∨ key = ascii "h" then .help else .notDefined key)
    | some f => .ok (.of f (name.dropWhile (· ≠ 61)))

def readWord (word : Bytes) : Except Error Word :=
  match word with
  | [45, 45] => .ok .stop
  | 45 :: 45 :: name => flagWord word name
  | 45 :: c :: name => flagWord word (c :: name)
  | _ => .ok .stop

/-- `FlagSet.Parse`: the values, and the flags that were set. -/
def parse (L : Library) : List Bytes → Values → List Flag → Except Error (Values × List Flag)
  | [], vals, seen => .ok (vals, seen)
  | word :: rest, vals, seen =>
    match readWord word with
    | .error e => .error e
    | .ok .stop => .ok (vals, seen)
    | .ok (.joined f v) =>
      match read L f v with
      | none => .error (.invalidValue f v)
      | some x => parse L rest (Function.update vals f x) (seen ++ [f])
    | .ok (.alone f) =>
      match rest with
      | [] => .error (.needsArgument f)
      | v :: rest =>
        match read L f v with
        | none => .error (.invalidValue f v)
        | some x => parse L rest (Function.update vals f x) (seen ++ [f])

/-- A command line, and the assignments it spells out. -/
inductive Spells : List Bytes → List (Flag × Bytes) → Prop
  | nil : Spells [] []
  /-- A word that is no flag, or two dashes, ends it. -/
  | stop {word : Bytes} {rest : List Bytes}
      (h : word.length < 2 ∨ word.head? ≠ some 45 ∨ word = [45, 45]) : Spells (word :: rest) []
  | joined {dashes v : Bytes} {f : Flag} {rest : List Bytes} {l : List (Flag × Bytes)}
      (hdashes : dashes = [45] ∨ dashes = [45, 45]) (h : Spells rest l) :
      Spells ((dashes ++ (f.name ++ 61 :: v)) :: rest) ((f, v) :: l)
  | apart {dashes v : Bytes} {f : Flag} {rest : List Bytes} {l : List (Flag × Bytes)}
      (hdashes : dashes = [45] ∨ dashes = [45, 45]) (h : Spells rest l) :
      Spells ((dashes ++ f.name) :: v :: rest) ((f, v) :: l)

lemma name_spec (f : Flag) : f.name ≠ [] ∧ f.name.head? ≠ some 45 ∧ 61 ∉ f.name := by
  cases f <;> decide

lemma find_name_iff {key : Bytes} {f : Flag} :
    visitAll.find? (·.name = key) = some f ↔ f.name = key := by
  constructor
  · intro h
    simpa using List.find?_some h
  · rintro rfl
    cases hfind : visitAll.find? (·.name = f.name) with
    | none =>
      have hnone := List.find?_eq_none.mp hfind f (mem_visitAll f)
      simp at hnone
    | some g =>
      have hname : g.name = f.name := by simpa using List.find?_some hfind
      rw [name_injective hname]

lemma takeWhile_name (f : Flag) {rest : Bytes} (h : rest = [] ∨ rest.head? = some 61) :
    (f.name ++ rest).takeWhile (· ≠ 61) = f.name ∧ (f.name ++ rest).dropWhile (· ≠ 61) = rest := by
  have hname : ∀ c ∈ f.name, decide (c ≠ 61) = true := by
    intro c hc
    have hne : c ≠ 61 := by
      rintro rfl
      exact (name_spec f).2.2 hc
    simpa using hne
  rw [List.takeWhile_append_of_pos hname, List.dropWhile_append_of_pos hname]
  rcases h with rfl | h
  · simp
  · obtain ⟨v, rfl⟩ := List.head?_eq_some_iff.mp h
    simp

lemma flagWord_name (word : Bytes) (f : Flag) {rest : Bytes}
    (h : rest = [] ∨ rest.head? = some 61) :
    flagWord word (f.name ++ rest) = .ok (.of f rest) := by
  obtain ⟨hne, hdash, hequals⟩ := name_spec f
  have hhead : (f.name ++ rest).head? = f.name.head? := List.head?_append_of_ne_nil _ hne
  have hstart : f.name.head? ≠ some 61 := fun h61 => hequals (List.mem_of_head? h61)
  obtain ⟨htake, hdrop⟩ := takeWhile_name f h
  simp only [flagWord, hhead, hdash, hstart, or_self, if_false, htake, hdrop,
    find_name_iff.mpr rfl]

lemma of_flagWord {word name : Bytes} {w : Word} (h : flagWord word name = .ok w) :
    ∃ f rest, w = .of f rest ∧ name = f.name ++ rest ∧ (rest = [] ∨ rest.head? = some 61) := by
  unfold flagWord at h
  rw [ite_eq_right_iff.mpr (by intro hbad; simp [hbad] at h)] at h
  dsimp only at h
  split at h
  · cases h
  · rename_i f hf
    have hname : f.name = name.takeWhile (· ≠ 61) := find_name_iff.mp hf
    cases h
    refine ⟨f, _, rfl, by rw [hname, List.takeWhile_append_dropWhile], ?_⟩
    cases hrest : name.dropWhile (· ≠ 61) with
    | nil => exact .inl rfl
    | cons c v =>
      have hc := List.head?_dropWhile_not (· ≠ (61 : UInt8)) name
      rw [hrest] at hc
      exact .inr (by simpa using hc)

lemma readWord_dashes {dashes : Bytes} (hdashes : dashes = [45] ∨ dashes = [45, 45]) (f : Flag)
    (rest : Bytes) (h : rest = [] ∨ rest.head? = some 61) :
    readWord (dashes ++ (f.name ++ rest)) = .ok (.of f rest) := by
  obtain ⟨hne, hdash, -⟩ := name_spec f
  obtain ⟨c, name, hname⟩ := List.exists_cons_of_ne_nil hne
  have hc : c ≠ 45 := by simpa [hname] using hdash
  rw [← flagWord_name (dashes ++ (f.name ++ rest)) f h]
  rcases hdashes with rfl | rfl
  · simp only [hname, List.cons_append, List.nil_append, readWord]
    split <;> simp_all
  · simp only [hname, List.cons_append, List.nil_append, readWord]

lemma readWord_stop {word : Bytes}
    (h : word.length < 2 ∨ word.head? ≠ some 45 ∨ word = [45, 45]) :
    readWord word = .ok .stop := by
  unfold readWord
  split
  · rfl
  · simp_all
  · simp_all
  · rfl

lemma of_readWord {word : Bytes} {w : Word} (h : readWord word = .ok w) :
    w = .stop ∧ (word.length < 2 ∨ word.head? ≠ some 45 ∨ word = [45, 45]) ∨
    ∃ dashes f rest, (dashes = [45] ∨ dashes = [45, 45]) ∧ word = dashes ++ (f.name ++ rest) ∧
      w = .of f rest ∧ (rest = [] ∨ rest.head? = some 61) := by
  unfold readWord at h
  split at h
  · cases h
    exact .inl ⟨rfl, .inr (.inr rfl)⟩
  · obtain ⟨f, rest, rfl, rfl, hrest⟩ := of_flagWord h
    exact .inr ⟨[45, 45], f, rest, .inr rfl, rfl, rfl, hrest⟩
  · obtain ⟨f, rest, rfl, hname, hrest⟩ := of_flagWord h
    exact .inr ⟨[45], f, rest, .inl rfl, by rw [hname]; rfl, rfl, hrest⟩
  · rename_i hno hone
    cases h
    refine .inl ⟨rfl, ?_⟩
    match word with
    | [] | [_] => exact .inl (by simp)
    | b :: c :: name =>
      refine .inr (.inl fun hb => ?_)
      cases Option.some.inj hb
      exact hone c name rfl

lemma spells_of_readWord {word : Bytes} {rest : List Bytes} {w : Word} (h : readWord word = .ok w) :
    match w with
    | .stop => Spells (word :: rest) []
    | .joined f v => ∀ l, Spells rest l → Spells (word :: rest) ((f, v) :: l)
    | .alone f => ∀ v l, Spells rest l → Spells (word :: v :: rest) ((f, v) :: l) := by
  rcases of_readWord h with ⟨rfl, hstop⟩ | ⟨dashes, f, tail, hdashes, rfl, rfl, htail⟩
  · exact .stop hstop
  · cases tail with
    | nil =>
      intro v l hl
      rw [List.append_nil]
      exact .apart hdashes hl
    | cons c v =>
      obtain rfl : c = 61 := by simpa using htail
      exact fun l hl => .joined hdashes hl

/-- **`Parse` makes the assignments that the command line spells out.** -/
lemma parse_eq_ok_iff {L : Library} {args : List Bytes} {vals vals' : Values}
    {seen seen' : List Flag} :
    parse L args vals seen = .ok (vals', seen') ↔
      ∃ l, Spells args l ∧ assign (read L) vals l = .ok vals' ∧ seen' = seen ++ l.map Prod.fst := by
  constructor
  · intro h
    fun_induction parse L args vals seen with
    | case1 vals seen =>
      cases h
      exact ⟨[], .nil, rfl, by simp⟩
    | case3 word rest vals seen hword =>
      cases h
      exact ⟨[], spells_of_readWord hword, rfl, by simp⟩
    | case5 word rest vals seen f v hword x hread ih =>
      obtain ⟨l, hl, hassign, hseen⟩ := ih h
      exact ⟨(f, v) :: l, spells_of_readWord hword l hl, by simpa [assign, hread] using hassign,
        by simpa using hseen⟩
    | case8 word vals seen f hword v rest x hread ih =>
      obtain ⟨l, hl, hassign, hseen⟩ := ih h
      exact ⟨(f, v) :: l, spells_of_readWord hword v l hl, by simpa [assign, hread] using hassign,
        by simpa using hseen⟩
    | case2 | case4 | case6 | case7 => cases h
  · rintro ⟨l, hspells, hassign, rfl⟩
    induction hspells generalizing vals seen with
    | nil =>
      cases hassign
      simp [parse]
    | stop h =>
      cases hassign
      simp [parse, readWord_stop h]
    | @joined dashes v f rest l hdashes h ih =>
      rw [assign] at hassign
      cases hread : read L f v with
      | none => simp [hread] at hassign
      | some x =>
        simp only [hread] at hassign
        have hword := readWord_dashes hdashes f (61 :: v) (.inr rfl)
        simp [parse, hword, Word.of, hread, ih hassign]
    | @apart dashes v f rest l hdashes h ih =>
      rw [assign] at hassign
      cases hread : read L f v with
      | none => simp [hread] at hassign
      | some x =>
        simp only [hread] at hassign
        have hword := readWord_dashes hdashes f [] (.inl rfl)
        rw [List.append_nil] at hword
        simp [parse, hword, Word.of, hread, ih hassign]

/-! ### The environment -/

/-- The variables of the flags that the command line has not set. -/
def environment (L : Library) (env : Bytes → Option Bytes) (seen : List Flag) :
    List Flag → Values → Except Error Values
  | [], vals => .ok vals
  | f :: fs, vals =>
    if f ∈ seen then environment L env seen fs vals
    else
      match env f.envKey with
      | none => environment L env seen fs vals
      | some v =>
        match read L f v with
        | none => .error (.environment f v)
        | some x => environment L env seen fs (Function.update vals f x)

/-- What the environment assigns to a flag. -/
def fromEnv (env : Bytes → Option Bytes) (seen : List Flag) (f : Flag) : Option Bytes :=
  if f ∈ seen then none else env f.envKey

lemma environment_eq_ok_iff {L : Library} {env : Bytes → Option Bytes} {seen fs : List Flag}
    {vals vals' : Values} : environment L env seen fs vals = .ok vals' ↔
      assign (read L) vals (fs.filterMap fun f => (fromEnv env seen f).map (f, ·)) = .ok vals' := by
  induction fs generalizing vals with
  | nil => simp [environment, assign]
  | cons f fs ih =>
    by_cases hseen : f ∈ seen
    · simp [environment, fromEnv, hseen, ih]
    · cases henv : env f.envKey with
      | none => simp [environment, fromEnv, hseen, henv, ih]
      | some v =>
        cases hread : read L f v with
        | none => simp [environment, fromEnv, hseen, henv, assign, hread]
        | some x => simp [environment, fromEnv, hseen, henv, assign, hread, ih]

/-! ### The checks -/

/-- One of the checks of `parseFlags`. -/
def check (bad : Prop) [Decidable bad] (e : Error) : Except Error Unit :=
  if bad then .error e else .ok ()

def policies : List Bytes := [ascii "none", ascii "lru", ascii "lfu", ascii "tinylfu"]

def routableHost (L : Library) (f : Flag) (v : Bytes) : Except Error Unit :=
  match L.host v with
  | none => .error (.address f v)
  | some host => check (host = [] ∨ L.unspecified host = true) (.unroutable f v)

/-- With `-gossip-addr` the node is one of a cluster, and both of its addresses are advertised. -/
def advertised (L : Library) (c : Values) : Except Error Unit :=
  if c .gossipAddr ≠ [] then do
    routableHost L .addr (c .addr)
    routableHost L .gossipAddr (c .gossipAddr)
  else .ok ()

def validate (L : Library) (c : Values) : Except Error Unit := do
  check (c .eviction ∉ policies) (.unknownEviction (c .eviction))
  advertised L c
  check (c .eviction ≠ ascii "none" ∧ c .maxEntries ≤ 0) (.needsMaxEntries (c .eviction))
  check (c .maxConns < 0) (.maxConns (c .maxConns))
  check (c .replicationFactor ≤ 0) (.replicationFactor (c .replicationFactor))
  check (c .readQuorum ≤ 0 ∨ c .replicationFactor < c .readQuorum)
    (.readQuorum (c .replicationFactor) (c .readQuorum))
  check (c .writeQuorum ≤ 0 ∨ c .replicationFactor < c .writeQuorum)
    (.writeQuorum (c .replicationFactor) (c .writeQuorum))
  check (0 < c .tombstoneGCInterval ∧ c .tombstoneGrace ≤ 0) .needsGrace

structure Config where
  values : Values
  /-- The level that the text of `-log-level` stands for. -/
  level : ℤ

def parseFlags (L : Library) (env : Bytes → Option Bytes) (args : List Bytes) :
    Except Error Config := do
  let (vals, seen) ← parse L args defaults []
  let vals ← environment L env seen visitAll vals
  match L.level (vals .logLevel) with
  | none => .error (.unknownLogLevel (vals .logLevel))
  | some level =>
    validate L vals
    return ⟨vals, level⟩

/-- Other nodes can be sent to the address. -/
def Routable (L : Library) (v : Bytes) : Prop :=
  ∃ host, L.host v = some host ∧ host ≠ [] ∧ L.unspecified host = false

structure Valid (L : Library) (c : Values) : Prop where
  eviction : c .eviction ∈ policies
  routable : c .gossipAddr ≠ [] → Routable L (c .addr) ∧ Routable L (c .gossipAddr)
  capped : c .eviction ≠ ascii "none" → 0 < c .maxEntries
  maxConns : 0 ≤ c .maxConns
  replicationFactor : 1 ≤ c .replicationFactor
  readQuorum : 1 ≤ c .readQuorum ∧ c .readQuorum ≤ c .replicationFactor
  writeQuorum : 1 ≤ c .writeQuorum ∧ c .writeQuorum ≤ c .replicationFactor
  grace : 0 < c .tombstoneGCInterval → 0 < c .tombstoneGrace

lemma check_eq_ok_iff {bad : Prop} [Decidable bad] {e : Error} : check bad e = .ok () ↔ ¬ bad := by
  unfold check
  split_ifs with h <;> simp [h]

lemma bind_eq_ok_iff {α β : Type} {x : Except Error α} {next : α → Except Error β} {y : β} :
    x >>= next = .ok y ↔ ∃ z, x = .ok z ∧ next z = .ok y := by
  cases x <;> simp [bind, Except.bind]

lemma check_then_iff {α : Type} {x : Except Error Unit} {next : Unit → Except Error α} {y : α} :
    x >>= next = .ok y ↔ x = .ok () ∧ next () = .ok y := by
  cases x <;> simp [bind, Except.bind]

lemma routableHost_eq_ok_iff {L : Library} {f : Flag} {v : Bytes} :
    routableHost L f v = .ok () ↔ Routable L v := by
  unfold routableHost Routable
  cases L.host v with
  | none => simp
  | some host => simp [check_eq_ok_iff, not_or]

lemma advertised_eq_ok_iff {L : Library} {c : Values} : advertised L c = .ok () ↔
    (c .gossipAddr ≠ [] → Routable L (c .addr) ∧ Routable L (c .gossipAddr)) := by
  unfold advertised
  split_ifs with h
  · simp [h, check_then_iff, routableHost_eq_ok_iff]
  · simp [not_not.mp h]

lemma validate_eq_ok_iff {L : Library} {c : Values} : validate L c = .ok () ↔ Valid L c := by
  simp only [validate, check_then_iff, check_eq_ok_iff, advertised_eq_ok_iff, not_not, not_and_or,
    not_or, not_le, not_lt]
  constructor
  · rintro ⟨heviction, hroutable, hcapped, hconns, hn, hr, hw, hgrace⟩
    exact ⟨heviction, hroutable, hcapped.resolve_left, hconns, hn, hr, hw,
      fun h => hgrace.resolve_left (not_le.mpr h)⟩
  · intro h
    exact ⟨h.eviction, h.routable, (em _).imp id h.capped, h.maxConns, h.replicationFactor,
      h.readQuorum, h.writeQuorum, (le_or_gt _ _).imp id h.grace⟩

/-! ### Where a configuration comes from -/

section Accepted

variable {L : Library} {env : Bytes → Option Bytes} {args : List Bytes} {cfg : Config}

lemma parseFlags_eq_ok : parseFlags L env args = .ok cfg ↔
    ∃ vals seen, parse L args defaults [] = .ok (vals, seen) ∧
      environment L env seen visitAll vals = .ok cfg.values ∧
      L.level (cfg.values .logLevel) = some cfg.level ∧ Valid L cfg.values := by
  simp only [parseFlags, bind_eq_ok_iff, Prod.exists]
  refine exists_congr fun vals => exists_congr fun seen => and_congr_right fun _ => ?_
  constructor
  · rintro ⟨vals', henv, hrest⟩
    split at hrest
    · cases hrest
    · rename_i level hlevel
      obtain ⟨hvalid, hcfg⟩ := check_then_iff.mp hrest
      cases hcfg
      exact ⟨henv, hlevel, validate_eq_ok_iff.mp hvalid⟩
  · rintro ⟨henv, hlevel, hvalid⟩
    refine ⟨cfg.values, henv, ?_⟩
    rw [hlevel]
    exact check_then_iff.mpr ⟨validate_eq_ok_iff.mpr hvalid, rfl⟩

lemma fromEnv_map_fst (l : List (Flag × Bytes)) (f : Flag) :
    fromEnv env (l.map Prod.fst) f = if last f l = none then env f.envKey else none := by
  have hmem : f ∈ l.map Prod.fst ↔ ¬ last f l = none := by
    rw [last_eq_none_iff]
    simp
  unfold fromEnv
  by_cases h : last f l = none <;> simp only [hmem, h, not_true_eq_false, not_false_eq_true,
    if_true, if_false]

lemma layered (l : List (Flag × Bytes)) (f : Flag) (x : f.kind.Value) :
    ((fromEnv env (l.map Prod.fst) f).bind (read L f)).getD (((last f l).bind (read L f)).getD x) =
      (((last f l).or (env f.envKey)).bind (read L f)).getD x := by
  rw [fromEnv_map_fst]
  cases last f l <;> simp

/-- **Where a configuration comes from.** A configuration is accepted if and only if the command
line is well formed, everything that is set there can be read, and so can the variables of the
environment for the flags that are not set there; each setting then has the value set last on the
command line, else that of the environment, else its default; and the settings pass the checks. -/
theorem parseFlags_eq_ok_iff : parseFlags L env args = .ok cfg ↔
    ∃ given, Spells args given ∧ (∀ p ∈ given, (read L p.1 p.2).isSome) ∧
      (∀ f v, (∀ p ∈ given, p.1 ≠ f) → env f.envKey = some v → (read L f v).isSome) ∧
      (∀ f, cfg.values f =
        (((last f given).or (env f.envKey)).bind (read L f)).getD (defaults f)) ∧
      L.level (cfg.values .logLevel) = some cfg.level ∧ Valid L cfg.values := by
  have hnodup : visitAll.Nodup := .of_map _ nodup_names
  rw [parseFlags_eq_ok]
  constructor
  · rintro ⟨vals, seen, hparse, henv, hlevel, hvalid⟩
    obtain ⟨given, hspells, hassign, rfl⟩ := parse_eq_ok_iff.mp hparse
    obtain ⟨hread, hvals⟩ := assign_eq_ok_iff.mp hassign
    rw [List.nil_append, environment_eq_ok_iff, assign_eq_ok_iff] at henv
    obtain ⟨hreadEnv, hcfg⟩ := henv
    refine ⟨given, hspells, hread, fun f v hf hv => ?_, fun f => ?_, hlevel, hvalid⟩
    · refine hreadEnv (f, v) (List.mem_filterMap.mpr ⟨f, mem_visitAll f, ?_⟩)
      rw [fromEnv_map_fst, if_pos (last_eq_none_iff.mpr hf), hv, Option.map_some]
    · rw [hcfg, last_filterMap hnodup (mem_visitAll f), hvals, layered]
  · rintro ⟨given, hspells, hread, hreadEnv, hvals, hlevel, hvalid⟩
    refine ⟨fun f => ((last f given).bind (read L f)).getD (defaults f), given.map Prod.fst,
      parse_eq_ok_iff.mpr ⟨given, hspells, assign_eq_ok_iff.mpr ⟨hread, fun _ => rfl⟩, rfl⟩,
      ?_, hlevel, hvalid⟩
    rw [environment_eq_ok_iff, assign_eq_ok_iff]
    refine ⟨fun p hp => ?_, fun f => ?_⟩
    · obtain ⟨f, -, hf⟩ := List.mem_filterMap.mp hp
      obtain ⟨v, hv, rfl⟩ := Option.map_eq_some_iff.mp hf
      rw [fromEnv_map_fst] at hv
      split_ifs at hv with hlast
      exact hreadEnv f v (last_eq_none_iff.mp hlast) hv
    · rw [last_filterMap hnodup (mem_visitAll f), layered, hvals]

end Accepted

end Kyria.Flags
