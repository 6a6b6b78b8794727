import Kyria.Routing.Agreement
import Kyria.Store.Ops

/-!
A cluster of one node next to a standalone node (`Handler.Handle`, `Coordinator.coordinate`).

Below the dispatch the two share nothing: the standalone node stores a value with its expiry and
removes what is deleted, the other one stores an encoded version and buries it under a tombstone.
Under every key there is at most one version, counted by the node itself.
-/

namespace Kyria.Server

open Std (ExtTreeMap LawfulEqOrd)
open Kyria.Lib.Cursor Kyria.Lib.MapOrder Kyria.Vclock Kyria.Version Kyria.Binenc Kyria.Store
open Kyria.Store.MapStore (SameLimits)
open Kyria.Replica Kyria.Coordinator Kyria.Protocol Kyria.Routing Kyria.Sha256 Kyria.Text

variable {σ : Type} (H : Hash)

/-! ### The replies to a script -/

/-- What a handler replies to commands that come one after the other. -/
def replies (h : Handler σ) : List (Ambient × Command) → List (Option Value)
  | [] => []
  | (amb, cmd) :: rest => (handle H h amb cmd).1 :: replies (handle H h amb cmd).2 rest

def standalone (m : MapStore σ) : Handler σ := { store := m }

/-- A node with a router and a coordinator. -/
def clustered (members : Option Membership.Members) (router : Router) (n r w : ℕ)
    (m : MapStore σ) : Handler σ where
  store := m
  members := members
  router := some router
  coordinator := some ⟨router.self, router, n, r, w⟩

/-- The standalone store `m` gives no occasion for another reply: a key that is read has not
expired, a key that is deleted is one that could be stored, and the options of a `SET` are left
out or set an expiry. -/
structure Alike (m : MapStore σ) (now : ℕ) (cmd : Command) : Prop where
  get : toUpper cmd.name = ascii "GET" → ∀ key, cmd.args = [key] →
    ∀ e : Entry, m.data[key]? = some e → e.expired now = false
  del : toUpper cmd.name = ascii "DEL" → ∀ key, cmd.args = [key] →
    key.length ≠ 0 ∧ key.length ≤ m.maxKeySize
  set : toUpper cmd.name = ascii "SET" → 2 ≤ cmd.args.length → cmd.args.length ≤ 4 →
    cmd.args.length = 2 ∨ ∃ key value option number n t, cmd.args = [key, value, option, number] ∧
      atoi number = some n ∧ ttl option n = some t ∧ 0 < t

/-- All commands of a script find the standalone store like that. -/
def AllAlike (m : MapStore σ) : List (Ambient × Command) → Prop
  | [] => True
  | (amb, cmd) :: rest => Alike m amb.env.now cmd ∧
      AllAlike (handle H (standalone m) amb cmd).2.store rest

/-- The value of a `SET` is within the limits, as it is and as the version of node `self`. -/
def Roomy (self : Bytes) (s₁ s₂ : MapStore σ) (cmd : Command) : Prop :=
  toUpper cmd.name = ascii "SET" → ∀ key value rest, cmd.args = key :: value :: rest →
    value.length ≤ s₁.maxValueSize ∧ value.length < 2 ^ 32 ∧
    23 + self.length + value.length ≤ s₂.maxValueSize

/-- Two empty stores without eviction, for a standalone node and for a cluster of `node`. -/
structure Paired (node : Bytes) (s₁ s₂ : MapStore σ) : Prop where
  empty₁ : s₁.data = ∅
  empty₂ : s₂.data = ∅
  policy₁ : s₁.policy = none
  policy₂ : s₂.policy = none
  keySize : s₂.maxKeySize = s₁.maxKeySize
  id : node.length ≤ maxUint16
  tombstone : 31 + node.length ≤ s₂.maxValueSize

/-! ### The one version of a key -/

/-- The clock of a node that counts alone. -/
def soleClock (self : Bytes) (c : UInt64) : Clock := (∅ : Clock).insert self c

/-- The entry that holds one version. -/
def stored (v : Version) : Entry := ⟨encode default [v], 0, 0⟩

/-- The store holds `ov` under the key, which counts at most `k` writes of `node`. -/
structure Holds (node : Bytes) (k : ℕ) (m : MapStore σ) (key : Bytes) (ov : Option Version) :
    Prop where
  entry : m.data[key]? = ov.map stored
  clock : ∀ v ∈ ov, ∃ c : UInt64, c.toNat ≤ k ∧ v.clock = soleClock node c
  fits : ∀ v ∈ ov, Version.Fits v

lemma size_soleClock (self : Bytes) (c : UInt64) : (soleClock self c).size = 1 := by
  simp [soleClock, ExtTreeMap.size_insert]

lemma toList_soleClock (self : Bytes) (c : UInt64) : (soleClock self c).toList = [(self, c)] := by
  obtain ⟨e, he⟩ := List.length_eq_one_iff.mp
    ((ExtTreeMap.length_toList).trans (size_soleClock self c))
  have hmem : (self, c) ∈ (soleClock self c).toList :=
    mem_toList_iff.mpr ExtTreeMap.getElem?_insert_self
  rw [he] at hmem ⊢
  rw [List.mem_singleton.mp hmem]

lemma increment_soleClock (self : Bytes) (c : UInt64) :
    Clock.increment (soleClock self c) self = soleClock self (c + 1) := by
  have hget : (soleClock self c).getD self 0 = c := ExtTreeMap.getD_insert_self
  rw [Clock.increment, hget]
  refine ExtTreeMap.ext_getElem? fun n => ?_
  simp only [soleClock, ExtTreeMap.getElem?_insert]
  split_ifs <;> rfl

lemma compare_soleClock (self : Bytes) {c d : UInt64} (h : c < d) :
    Clock.compare (soleClock self c) (soleClock self d) = .before := by
  have hget : ∀ x, (soleClock self x).getD self 0 = x := fun x => ExtTreeMap.getD_insert_self
  have hback : ¬ d < c := UInt64.not_lt.mpr (UInt64.le_of_lt h)
  simp [Clock.compare, Clock.aheadOf, toList_soleClock, hget, h, hback]

section Mint

variable {self key : Bytes} {k : ℕ} {m : MapStore σ} {ov : Option Version}

lemma exists_newClock (h : Holds self k m key ov) (hk : k + 1 < 2 ^ 64) :
    ∃ c : UInt64, c.toNat ≤ k + 1 ∧ newClock self ov.toList = soleClock self c ∧
      ∀ v' : Version, v'.clock = soleClock self c → reconcile ov.toList v' = [v'] := by
  cases ov with
  | none =>
    refine ⟨1, by simp, ?_, fun v' _ => rfl⟩
    simp [newClock, Version.frontier, Clock.increment, soleClock]
  | some v =>
    obtain ⟨c, hc, hclock⟩ := h.clock v rfl
    have hsucc : (c + 1).toNat = c.toNat + 1 := by
      rw [UInt64.toNat_add]
      exact Nat.mod_eq_of_lt (by simp; omega)
    have hlt : c < c + 1 := UInt64.lt_iff_toNat_lt.mpr (by omega)
    refine ⟨c + 1, by omega, ?_, fun v' hv' => ?_⟩
    · have hfrontier : Version.frontier [v] = soleClock self c := by
        have hnone : (∅ : Clock).toList = [] := rfl
        simp only [Version.frontier, List.foldl_cons, List.foldl_nil, Clock.merge, hclock, hnone]
      rw [newClock, Option.toList_some, hfrontier, increment_soleClock]
    · simp [reconcile, hclock, hv', compare_soleClock self hlt]

lemma length_encode_sole (o : ClockOrder) {v : Version} {c : UInt64}
    (hid : self.length ≤ maxUint16) (hclock : v.clock = soleClock self c) :
    (encode o [v]).length =
      23 + self.length + v.value.length + (if v.deleted then 8 else 0) := by
  have hvisit : o.visit 0 (soleClock self c).toList = [(self, c)] := by
    rw [toList_soleClock]
    exact o.visit_eq_self 0 le_rfl
  have hstring : putString self = .ok (putUint16 (UInt16.ofNat self.length) ++ self) :=
    if_neg (by omega)
  have hzip : ([v].zipIdx.flatMap fun p => encodeVersion o p.2 p.1) = encodeVersion o 0 v := by
    simp
  have hstamp : (if v.deleted then putUint64 v.deletedAt.toUInt64 else []).length =
      if v.deleted then 8 else 0 := by
    split_ifs
    · exact length_bigEndian _ _
    · rfl
  rw [encode, hzip]
  simp only [encodeVersion, encodeClock, hclock, hvisit, List.flatMap_cons, List.flatMap_nil,
    List.append_nil, encodeEntry, hstring, written, putUint16, putUint32, putUint64, putBool,
    List.length_append, length_bigEndian, List.length_singleton] at hstamp ⊢
  omega

lemma fits_sole {v : Version} {c : UInt64} (hid : self.length ≤ maxUint16)
    (hclock : v.clock = soleClock self c) (hvalue : v.value.length < 2 ^ 32)
    (hstamp : v.deleted = false → v.deletedAt = 0) : Version.Fits v where
  value := hvalue
  clock := by
    rw [hclock, size_soleClock]
    norm_num
  ids := by
    rw [hclock, toList_soleClock]
    simpa using hid
  stamp := hstamp

/-- Why the store refuses a key, if it does. -/
def keyError (m : MapStore σ) (key : Bytes) : Option StoreError :=
  if key.length = 0 then some .errEmptyKey
  else if key.length > m.maxKeySize then some .errKeyTooLarge
  else none

lemma keyError_cases (m : MapStore σ) (key : Bytes) :
    keyError m key = none ∨ keyError m key = some .errEmptyKey ∨
      keyError m key = some .errKeyTooLarge := by
  unfold keyError
  split_ifs
  · exact .inr (.inl rfl)
  · exact .inr (.inr rfl)
  · exact .inl rfl

lemma setEntry_eq {value : Bytes} (hp : m.policy = none) (hvalue : value.length ≤ m.maxValueSize)
    (o : EntryOrder) (expiresAt : ℕ) (bypass : Bool) :
    m.setEntry o key value expiresAt bypass =
      match keyError m key with
      | some err => (.error err, m)
      | none => (.ok true, { m with data := m.data.insert key ⟨value, expiresAt, 0⟩ }) := by
  have hkey : m.rejection key value = keyError m key := by
    rw [MapStore.rejection, keyError, if_neg (Nat.not_lt.mpr hvalue)]
  have hset := MapStore.setEntry_eq hp o key value expiresAt bypass
  rw [hkey] at hset
  refine hset.trans ?_
  cases keyError m key with
  | none => rfl
  | some err => rfl

lemma get_of_no_policy (hp : m.policy = none) (now : ℕ) : (m.get now key).2 = m := by
  rw [MapStore.get_eq hp]

lemma Holds.permanent (h : Holds self k m key ov) : m.Permanent key := by
  intro e he
  rw [h.entry] at he
  obtain ⟨v, -, rfl⟩ := Option.map_eq_some_iff.mp he
  rfl

lemma Holds.siblings_eq (h : Holds self k m key ov) (now : ℕ) :
    siblingsOf ((m.get now key).1.getD []) = ov.toList := by
  rw [MapStore.get_fst_of_permanent h.permanent, h.entry]
  cases ov with
  | none => rfl
  | some v =>
    rw [Option.map_some, Option.map_some, Option.getD_some]
    exact siblingsOf_encode default (h.fits v rfl).encodable

/-- **A write mints the only version**, unless the key is refused. -/
lemma mint_eq (h : Holds self k m key ov) (hk : k + 1 < 2 ^ 64) (hp : m.policy = none)
    (hid : self.length ≤ maxUint16) (env : Env) (mk : Clock → Version)
    (hclock : ∀ c, (mk c).clock = c) (hvalue : ∀ c, (mk c).value.length < 2 ^ 32)
    (hstamp : ∀ c, (mk c).deleted = false → (mk c).deletedAt = 0)
    (hsize : ∀ c, 23 + self.length + (mk c).value.length + (if (mk c).deleted then 8 else 0) ≤
      m.maxValueSize) :
    ∃ c : UInt64, c.toNat ≤ k + 1 ∧ Version.Fits (mk (soleClock self c)) ∧
      mint m env self key mk = match keyError m key with
        | some err => (.error err, m)
        | none => (.ok (ov.toList, mk (soleClock self c)),
            { m with data := m.data.insert key (stored (mk (soleClock self c))) }) := by
  obtain ⟨c, hc, hnew, hrec⟩ := exists_newClock h hk
  have hsole := hclock (soleClock self c)
  refine ⟨c, hc, fits_sole hid hsole (hvalue _) (hstamp _), ?_⟩
  have hlen := length_encode_sole env.clocks hid hsole
  have hsmall := hsize (soleClock self c)
  have hcoded : encode env.clocks [mk (soleClock self c)] =
      encode default [mk (soleClock self c)] := by
    refine encode_eq_of_size_le (fun v hv => ?_) _ _
    rw [List.mem_singleton.mp hv, hsole, size_soleClock]
  simp only [mint, revise, MapStore.updateReplica, h.siblings_eq, get_of_no_policy hp, hnew,
    hrec _ hsole]
  rw [setEntry_eq hp (by omega), hcoded]
  cases keyError m key with
  | none => rfl
  | some err => rfl

end Mint

/-! ### Two stores with the same contents -/

/-- The value of a version, unless it is a tombstone. -/
def shown (ov : Option Version) : Option Bytes :=
  ov.bind fun v => if v.deleted then none else some v.value

/-- The second store holds what the first one holds, expired or not. -/
structure Mirrors (node : Bytes) (s₁ s₂ : MapStore σ) (k : ℕ) (m₁ m₂ : MapStore σ) : Prop where
  limits₁ : SameLimits s₁ m₁
  limits₂ : SameLimits s₂ m₂
  keys : ∀ key, ∃ ov, Holds node k m₂ key ov ∧ (m₁.data[key]?).map Entry.value = shown ov

section Mirrors

variable {self : Bytes} {s₁ s₂ m₁ m₂ : MapStore σ} {k : ℕ}

lemma Holds.mono {key : Bytes} {ov : Option Version} (h : Holds self k m₂ key ov) :
    Holds self (k + 1) m₂ key ov where
  entry := h.entry
  clock v hv := by
    obtain ⟨c, hc, hclock⟩ := h.clock v hv
    exact ⟨c, by omega, hclock⟩
  fits := h.fits

lemma Mirrors.mono (h : Mirrors self s₁ s₂ k m₁ m₂) : Mirrors self s₁ s₂ (k + 1) m₁ m₂ where
  limits₁ := h.limits₁
  limits₂ := h.limits₂
  keys key := by
    obtain ⟨ov, hov, hshown⟩ := h.keys key
    exact ⟨ov, hov.mono, hshown⟩

lemma mirrors_of_paired (h : Paired self s₁ s₂) : Mirrors self s₁ s₂ 0 s₁ s₂ where
  limits₁ := .refl s₁
  limits₂ := .refl s₂
  keys key := by
    refine ⟨none, ⟨?_, by simp, by simp⟩, ?_⟩
    · rw [h.empty₂]
      rfl
    · rw [h.empty₁]
      rfl

lemma Mirrors.keyError_eq (h : Mirrors self s₁ s₂ k m₁ m₂) (hs : Paired self s₁ s₂)
    (key : Bytes) : keyError m₂ key = keyError m₁ key := by
  have hsize : m₂.maxKeySize = m₁.maxKeySize :=
    h.limits₂.maxKeySize.trans (hs.keySize.trans h.limits₁.maxKeySize.symm)
  rw [keyError, hsize]
  rfl

lemma Mirrors.update (h : Mirrors self s₁ s₂ k m₁ m₂) {d : ExtTreeMap Bytes Entry} {key : Bytes}
    {v : Version} {c : UInt64} (hother : ∀ k', k' ≠ key → d[k']? = m₁.data[k']?)
    (hvalue : (d[key]?).map Entry.value = shown (some v)) (hc : c.toNat ≤ k + 1)
    (hclock : v.clock = soleClock self c) (hfits : Version.Fits v) :
    Mirrors self s₁ s₂ (k + 1) { m₁ with data := d }
      { m₂ with data := m₂.data.insert key (stored v) } where
  limits₁ := h.limits₁.trans ⟨rfl, rfl, rfl, rfl⟩
  limits₂ := h.limits₂.trans ⟨rfl, rfl, rfl, rfl⟩
  keys k' := by
    by_cases hk : k' = key
    · subst hk
      refine ⟨some v, ⟨ExtTreeMap.getElem?_insert_self, ?_, ?_⟩, hvalue⟩
      · intro v' hv'
        cases hv'
        exact ⟨c, hc, hclock⟩
      · intro v' hv'
        cases hv'
        exact hfits
    · obtain ⟨ov, hov, hshown⟩ := h.keys k'
      have hentry : (m₂.data.insert key (stored v))[k']? = m₂.data[k']? := by
        rw [ExtTreeMap.getElem?_insert, if_neg]
        exact fun heq => hk (LawfulEqOrd.compare_eq_iff_eq.mp heq).symm
      refine ⟨ov, ⟨hentry.trans hov.entry, hov.mono.clock, hov.fits⟩, ?_⟩
      rw [hother k' hk]
      exact hshown

end Mirrors

/-! ### The two paths below the dispatch -/

lemma handle_standalone {m : MapStore σ} {amb : Ambient} {cmd : Command} {spec : CommandSpec}
    (hspec : commands (toUpper cmd.name) = some spec) (hmin : spec.minArgs ≤ cmd.args.length)
    (hmax : cmd.args.length ≤ spec.maxArgs) :
    handle H (standalone m) amb cmd =
      ((runVerb H (standalone m) amb cmd.args spec.run).1,
        standalone (runVerb H (standalone m) amb cmd.args spec.run).2) := by
  simp only [handle, hspec, if_neg (show ¬ (cmd.args.length < spec.minArgs ∨
    cmd.args.length > spec.maxArgs) by omega)]
  rfl

section Clustered

variable {members : Option Membership.Members} {router : Router} {n r w : ℕ} {m : MapStore σ}
  {amb : Ambient}

lemma handle_clustered (halone : router.Alone) {cmd : Command} {spec : CommandSpec}
    (hname : toUpper cmd.name ∈ clientCommands) (hspec : commands (toUpper cmd.name) = some spec)
    (hmin : spec.minArgs ≤ cmd.args.length) (hmax : cmd.args.length ≤ spec.maxArgs) :
    handle H (clustered members router n r w m) amb cmd =
      ((Coordinator.coordinate ⟨router.self, router, n, r, w⟩ m amb cmd).1,
        clustered members router n r w
          (Coordinator.coordinate ⟨router.self, router, n, r, w⟩ m amb cmd).2) := by
  have hcl := clusteredOp_of_mem hname hspec
  have hredirect : redirect (clustered members router n r w m) spec (cmd.args.getD 0 []) =
      none := by
    simp only [redirect, clustered]
    rcases owner_of_alone halone (cmd.args.getD 0 []) with hnone | hself
    · rw [hnone, ite_self]
    · have hlocal : router.isLocal (cmd.args.getD 0 []) = true := decide_eq_true hself
      rw [hlocal, Bool.not_true, Bool.and_false, if_neg Bool.false_ne_true]
  have hcoord : coordinatorFor (clustered members router n r w m) spec =
      some ⟨router.self, router, n, r, w⟩ := by
    simp [coordinatorFor, clustered, hcl]
  simp only [handle, hspec, if_neg (show ¬ (cmd.args.length < spec.minArgs ∨
    cmd.args.length > spec.maxArgs) by omega), hredirect, hcoord]
  rfl

lemma finish_of_alone (halone : router.Alone) (key : Bytes)
    (res : Except StoreError (WriteKind × Version) × MapStore σ) :
    Coordinator.finish ⟨router.self, router, n, r, w⟩ amb key res =
      (some (match res.1 with
        | .error err => errorReply err
        | .ok (kind, _) => kind.success), res.2) := by
  obtain ⟨res, m'⟩ := res
  cases res with
  | error err => rfl
  | ok res =>
    obtain ⟨kind, v⟩ := res
    rcases owners_of_alone halone key n with howners | howners
    · simp [Coordinator.finish, howners, peersExcept, gather, gatherLoop, writeReply]
    · simp [Coordinator.finish, howners, peersExcept, gather, gatherLoop, writeReply]

lemma read_of_alone (halone : router.Alone) (key : Bytes) :
    Coordinator.read ⟨router.self, router, n, r, w⟩ m amb key =
      (some (mergedReply (siblingsOf ((m.get amb.env.now key).1.getD []))),
        (m.get amb.env.now key).2) := by
  rcases owners_of_alone halone key n with howners | howners
  · simp [Coordinator.read, howners, readInit, readLoop, readReply]
  · simp [Coordinator.read, howners, readInit, readLoop, readReply]

end Clustered

/-! ### One command -/

/-- The two outcomes have the same reply exactly if `P` holds, and then leave stores with the same
contents. -/
def Tracks (node : Bytes) (s₁ s₂ : MapStore σ) (k : ℕ) (P : Prop)
    (a b : Option Value × MapStore σ) : Prop :=
  (a.1 = b.1 ↔ P) ∧ (P → Mirrors node s₁ s₂ k a.2 b.2)

section OneCommand

variable {router : Router} {s₁ s₂ m₁ m₂ : MapStore σ} {k : ℕ} (n r w : ℕ) (amb : Ambient)
  (hs : Paired router.self s₁ s₂) (h : Mirrors router.self s₁ s₂ k m₁ m₂) (hk : k + 1 < 2 ^ 64)
  (halone : router.Alone)

include hs in
lemma Mirrors.policies (h : Mirrors router.self s₁ s₂ k m₁ m₂) :
    m₁.policy = none ∧ m₂.policy = none :=
  ⟨h.limits₁.policy.trans hs.policy₁, h.limits₂.policy.trans hs.policy₂⟩

lemma mergedReply_toList (ov : Option Version) :
    mergedReply ov.toList = .bulkString (shown ov) := by
  cases ov with
  | none => rfl
  | some v =>
    cases hd : v.deleted with
    | false => simp [mergedReply, live, shown, hd]
    | true => simp [mergedReply, live, shown, hd]

include hs h halone in
lemma tracks_get (key : Bytes) :
    Tracks router.self s₁ s₂ (k + 1) (∀ e : Entry, m₁.data[key]? = some e →
        e.expired amb.env.now = false)
      (runVerb H (standalone m₁) amb [key] .get)
      (Coordinator.read ⟨router.self, router, n, r, w⟩ m₂ amb key) := by
  obtain ⟨hp₁, hp₂⟩ := h.policies hs
  obtain ⟨ov, hov, hshown⟩ := h.keys key
  rw [read_of_alone halone, hov.siblings_eq, mergedReply_toList, get_of_no_policy hp₂, ← hshown]
  have hrun : runVerb H (standalone m₁) amb [key] .get =
      (some (.bulkString (m₁.get amb.env.now key).1), m₁) :=
    Prod.ext rfl (get_of_no_policy hp₁ _)
  rw [hrun]
  refine ⟨?_, fun _ => h.mono⟩
  simp only [Option.some.injEq, Value.bulkString.injEq]
  cases he : m₁.data[key]? with
  | none => simp [MapStore.get, he]
  | some e =>
    cases hexp : e.expired amb.env.now with
    | false => simp [MapStore.get, he, hexp, hp₁]
    | true => simp [MapStore.get, he, hexp]

lemma setReply_eq {key value : Bytes} {m : MapStore σ} (hp : m.policy = none)
    (hvalue : value.length ≤ m.maxValueSize) (o : EntryOrder) (expiresAt : ℕ) :
    setReply (m.setEntry o key value expiresAt false) =
      match keyError m key with
      | some err => (errorReply err, m)
      | none => (.simpleString (ascii "OK"),
          { m with data := m.data.insert key ⟨value, expiresAt, 0⟩ }) := by
  rw [setEntry_eq hp hvalue]
  cases keyError m key with
  | none => rfl
  | some err => rfl

include hs h hk halone in
lemma write_of_alone (key : Bytes) {value : Bytes} (hvalue : value.length < 2 ^ 32)
    (hsize : 23 + router.self.length + value.length ≤ s₂.maxValueSize) :
    ∃ (c : UInt64) (v : Version), c.toNat ≤ k + 1 ∧ v.clock = soleClock router.self c ∧
      Version.Fits v ∧ v.value = value ∧ v.deleted = false ∧
      Coordinator.write ⟨router.self, router, n, r, w⟩ m₂ amb key value =
        match keyError m₁ key with
        | some err => (some (errorReply err), m₂)
        | none => (some (.simpleString (ascii "OK")),
            { m₂ with data := m₂.data.insert key (stored v) }) := by
  obtain ⟨ov, hov, -⟩ := h.keys key
  obtain ⟨c, hc, hfits, hmint⟩ := mint_eq hov hk (h.policies hs).2 hs.id amb.env
    (fun clock => { value, clock }) (fun _ => rfl) (fun _ => hvalue) (fun _ _ => rfl)
    (fun _ => by rw [h.limits₂.maxValueSize]; simpa using hsize)
  refine ⟨c, { value, clock := soleClock router.self c }, hc, rfl, hfits, rfl, rfl, ?_⟩
  rw [Coordinator.write, finish_of_alone halone, writeLocal, hmint, h.keyError_eq hs]
  cases keyError m₁ key with
  | none => rfl
  | some err => rfl

include hs h hk halone in
lemma tracks_write (key : Bytes) {value : Bytes} (hroom : value.length ≤ s₁.maxValueSize)
    (hvalue : value.length < 2 ^ 32)
    (hsize : 23 + router.self.length + value.length ≤ s₂.maxValueSize) (o : EntryOrder)
    (expiresAt : ℕ) :
    let a := setReply (m₁.setEntry o key value expiresAt false)
    Tracks router.self s₁ s₂ (k + 1) True (some a.1, a.2)
      (Coordinator.write ⟨router.self, router, n, r, w⟩ m₂ amb key value) := by
  obtain ⟨c, v, hc, hclock, hfits, rfl, hlive, hwrite⟩ :=
    write_of_alone n r w amb hs h hk halone key hvalue hsize
  rw [hwrite, setReply_eq (h.policies hs).1 (h.limits₁.maxValueSize ▸ hroom)]
  cases keyError m₁ key with
  | some err => exact ⟨iff_of_true rfl trivial, fun _ => h.mono⟩
  | none =>
    refine ⟨iff_of_true rfl trivial, fun _ => h.update (fun k' hk' => ?_) ?_ hc hclock hfits⟩
    · rw [ExtTreeMap.getElem?_insert, if_neg]
      exact fun heq => hk' (LawfulEqOrd.compare_eq_iff_eq.mp heq).symm
    · rw [ExtTreeMap.getElem?_insert_self]
      simp [shown, hlive]

lemma set_of_bad_options (m : MapStore σ) (env : Env) {args : List Bytes}
    (hmin : 2 ≤ args.length) (hmax : args.length ≤ 4) (hlen : args.length ≠ 2)
    (hbad : ¬ ∃ key value option number n t, args = [key, value, option, number] ∧
      atoi number = some n ∧ ttl option n = some t ∧ 0 < t) :
    (set m env args).1 ∈ [.error (ascii "ERR value is not an integer or out of range"),
      .error (ascii "ERR syntax error"), errorReply .errInvalidTTL] := by
  match args, hmin, hmax, hlen with
  | [_, _], _, _, hlen => exact absurd rfl hlen
  | [_, _, _], _, _, _ => simp [set]
  | [key, value, option, number], _, _, _ =>
    simp only [set]
    cases hn : atoi number with
    | none => simp
    | some n =>
      cases ht : ttl option n with
      | none => simp [ht]
      | some t =>
        have hle : t ≤ 0 := not_lt.mp fun hpos =>
          hbad ⟨key, value, option, number, n, t, rfl, hn, ht, hpos⟩
        simp [ht, MapStore.setWithTTL, hle, setReply]

lemma set_of_good_options (m : MapStore σ) (env : Env) {key value : Bytes} {rest : List Bytes}
    (hgood : (key :: value :: rest).length = 2 ∨
      ∃ key' value' option number n t, key :: value :: rest = [key', value', option, number] ∧
        atoi number = some n ∧ ttl option n = some t ∧ 0 < t) :
    ∃ expiresAt, set m env (key :: value :: rest) =
      setReply (m.setEntry env.entries key value expiresAt false) := by
  rcases hgood with htwo | ⟨key', value', option, number, n, t, hargs, hn, ht, hpos⟩
  · obtain rfl : rest = [] := List.length_eq_zero_iff.mp (by simpa using htwo)
    exact ⟨0, rfl⟩
  · cases hargs
    refine ⟨env.now + t.toNat, ?_⟩
    simp only [set, hn, ht, MapStore.setWithTTL, if_neg (not_le.mpr hpos)]

include hs h hk halone in
lemma write_ne_of_bad_options (key : Bytes) {value : Bytes} (hvalue : value.length < 2 ^ 32)
    (hsize : 23 + router.self.length + value.length ≤ s₂.maxValueSize) {a : Value}
    (ha : a ∈ [.error (ascii "ERR value is not an integer or out of range"),
      .error (ascii "ERR syntax error"), errorReply .errInvalidTTL]) :
    some a ≠ (Coordinator.write ⟨router.self, router, n, r, w⟩ m₂ amb key value).1 := by
  have hreplies : ∀ a ∈ [Value.error (ascii "ERR value is not an integer or out of range"),
      .error (ascii "ERR syntax error"), errorReply .errInvalidTTL],
      ∀ b ∈ [Value.simpleString (ascii "OK"), errorReply .errEmptyKey,
        errorReply .errKeyTooLarge], a ≠ b := by decide +kernel
  obtain ⟨c, v, -, -, -, -, -, hwrite⟩ := write_of_alone n r w amb hs h hk halone key hvalue hsize
  obtain ⟨b, hb, hreply⟩ : ∃ b ∈ [Value.simpleString (ascii "OK"), errorReply .errEmptyKey,
      errorReply .errKeyTooLarge],
      (Coordinator.write ⟨router.self, router, n, r, w⟩ m₂ amb key value).1 = some b := by
    rw [hwrite]
    rcases keyError_cases m₁ key with hkey | hkey | hkey
    · exact ⟨.simpleString (ascii "OK"), by simp, by rw [hkey]⟩
    · exact ⟨errorReply .errEmptyKey, by simp, by rw [hkey]⟩
    · exact ⟨errorReply .errKeyTooLarge, by simp, by rw [hkey]⟩
  rw [hreply, Ne, Option.some.injEq]
  exact hreplies a ha b hb

include hs h hk halone in
lemma tracks_set {key value : Bytes} {rest : List Bytes} (hlen : rest.length ≤ 2)
    (hroom : value.length ≤ s₁.maxValueSize) (hvalue : value.length < 2 ^ 32)
    (hsize : 23 + router.self.length + value.length ≤ s₂.maxValueSize) :
    Tracks router.self s₁ s₂ (k + 1) ((key :: value :: rest).length = 2 ∨
        ∃ key' value' option number n t, key :: value :: rest = [key', value', option, number] ∧
          atoi number = some n ∧ ttl option n = some t ∧ 0 < t)
      (runVerb H (standalone m₁) amb (key :: value :: rest) .set)
      (Coordinator.write ⟨router.self, router, n, r, w⟩ m₂ amb key value) := by
  have hrun : runVerb H (standalone m₁) amb (key :: value :: rest) .set =
      (some (set m₁ amb.env (key :: value :: rest)).1,
        (set m₁ amb.env (key :: value :: rest)).2) := rfl
  rw [hrun]
  by_cases hgood : (key :: value :: rest).length = 2 ∨
      ∃ key' value' option number n t, key :: value :: rest = [key', value', option, number] ∧
        atoi number = some n ∧ ttl option n = some t ∧ 0 < t
  · obtain ⟨expiresAt, hset⟩ := set_of_good_options m₁ amb.env hgood
    obtain ⟨hsame, hmirror⟩ :=
      tracks_write n r w amb hs h hk halone key hroom hvalue hsize amb.env.entries expiresAt
    rw [hset]
    exact ⟨iff_of_true (hsame.mpr trivial) hgood, fun _ => hmirror trivial⟩
  · refine ⟨iff_of_false ?_ hgood, fun hgood' => absurd hgood' hgood⟩
    obtain ⟨hne, hbad⟩ := not_or.mp hgood
    have hrefused := set_of_bad_options m₁ amb.env (by simp)
      (by simp only [List.length_cons]; omega) hne hbad
    exact write_ne_of_bad_options n r w amb hs h hk halone key hvalue hsize hrefused

lemma length_live_toList (ov : Option Version) :
    (if (live ov.toList).length > 0 then (1 : Int64) else 0) =
      if (shown ov).isSome then 1 else 0 := by
  cases ov with
  | none => rfl
  | some v =>
    cases hd : v.deleted with
    | false => simp [live, shown, hd]
    | true => simp [live, shown, hd]

include hs h hk halone in
lemma delete_of_alone {key : Bytes} {ov : Option Version} (hov : Holds router.self k m₂ key ov) :
    ∃ (c : UInt64) (v : Version), c.toNat ≤ k + 1 ∧ v.clock = soleClock router.self c ∧
      Version.Fits v ∧ v.deleted = true ∧
      Coordinator.delete ⟨router.self, router, n, r, w⟩ m₂ amb key =
        match keyError m₁ key with
        | some err => (some (errorReply err), m₂)
        | none => (some (.integer (if (shown ov).isSome then 1 else 0)),
            { m₂ with data := m₂.data.insert key (stored v) }) := by
  obtain ⟨c, hc, hfits, hmint⟩ := mint_eq hov hk (h.policies hs).2 hs.id amb.env
    (fun clock => tombstone clock (Time.unix amb.env.now)) (fun _ => rfl)
    (fun _ => by simp [tombstone]) (fun _ hlive => by simp [tombstone] at hlive)
    (fun _ => by
      have htomb := hs.tombstone
      rw [h.limits₂.maxValueSize]
      simp only [tombstone, List.length_nil, if_true]
      omega)
  refine ⟨c, tombstone (soleClock router.self c) (Time.unix amb.env.now), hc, rfl, hfits, rfl, ?_⟩
  rw [Coordinator.delete, finish_of_alone halone, deleteLocal, hmint, h.keyError_eq hs]
  cases keyError m₁ key with
  | none => simp only [Except.map, WriteKind.success, length_live_toList]
  | some err => rfl

include hs h hk halone in
lemma tracks_del (key : Bytes) :
    Tracks router.self s₁ s₂ (k + 1) (key.length ≠ 0 ∧ key.length ≤ m₁.maxKeySize)
      (runVerb H (standalone m₁) amb [key] .del)
      (Coordinator.delete ⟨router.self, router, n, r, w⟩ m₂ amb key) := by
  obtain ⟨ov, hov, hshown⟩ := h.keys key
  obtain ⟨c, v, hc, hclock, hfits, hdeleted, hdelete⟩ :=
    delete_of_alone n r w amb hs h hk halone hov
  have hrun : runVerb H (standalone m₁) amb [key] .del =
      (some (.integer (if (shown ov).isSome then 1 else 0)),
        { m₁ with data := m₁.data.erase key }) := by
    have hcontains : m₁.data.contains key = (shown ov).isSome := by
      rw [← hshown, Option.isSome_map, ExtTreeMap.contains_eq_isSome_getElem?]
    simp only [runVerb, standalone, del, MapStore.delete, List.getD_cons_zero, hcontains]
  rw [hdelete, hrun]
  cases hkey : keyError m₁ key with
  | none =>
    have hok : key.length ≠ 0 ∧ key.length ≤ m₁.maxKeySize := by
      unfold keyError at hkey
      split_ifs at hkey with hempty hlong
      exact ⟨hempty, by omega⟩
    refine ⟨iff_of_true rfl hok, fun _ => h.update (fun k' hk' => ?_) ?_ hc hclock hfits⟩
    · rw [ExtTreeMap.getElem?_erase, if_neg]
      exact fun heq => hk' (LawfulEqOrd.compare_eq_iff_eq.mp heq).symm
    · rw [ExtTreeMap.getElem?_erase_self]
      simp [shown, hdeleted]
  | some err =>
    have hbad : ¬ (key.length ≠ 0 ∧ key.length ≤ m₁.maxKeySize) := by
      rintro ⟨hempty, hlong⟩
      rw [keyError, if_neg hempty, if_neg (by omega)] at hkey
      cases hkey
    refine ⟨iff_of_false (fun heq => ?_) hbad, fun hok => absurd hok hbad⟩
    simp [errorReply] at heq

/-- The two handlers answer the command alike exactly if `Alike` holds, and go on with stores of the
same contents. -/
def Agree (members : Option Membership.Members) (router : Router) (n r w : ℕ)
    (s₁ s₂ : MapStore σ) (k : ℕ) (m₁ m₂ : MapStore σ) (amb : Ambient) (cmd : Command) : Prop :=
  let a := handle H (standalone m₁) amb cmd
  let b := handle H (clustered members router n r w m₂) amb cmd
  (a.1 = b.1 ↔ Alike m₁ amb.env.now cmd) ∧
  (Alike m₁ amb.env.now cmd → ∃ m₁' m₂', a.2 = standalone m₁' ∧
    b.2 = clustered members router n r w m₂' ∧ Mirrors router.self s₁ s₂ (k + 1) m₁' m₂')

variable {cmd : Command} {spec : CommandSpec} (hname : toUpper cmd.name ∈ clientCommands)
  (hspec : commands (toUpper cmd.name) = some spec) (members : Option Membership.Members)

include halone hname hspec in
lemma agree_of_tracks {P : Prop} (hmin : spec.minArgs ≤ cmd.args.length)
    (hmax : cmd.args.length ≤ spec.maxArgs) (hP : P ↔ Alike m₁ amb.env.now cmd)
    (htracks : Tracks router.self s₁ s₂ (k + 1) P
      (runVerb H (standalone m₁) amb cmd.args spec.run)
      (Coordinator.coordinate ⟨router.self, router, n, r, w⟩ m₂ amb cmd)) :
    Agree H members router n r w s₁ s₂ k m₁ m₂ amb cmd := by
  unfold Agree
  rw [handle_standalone H hspec hmin hmax, handle_clustered H halone hname hspec hmin hmax]
  exact ⟨htracks.1.trans hP, fun halike => ⟨_, _, rfl, rfl, htracks.2 (hP.mpr halike)⟩⟩

include h hspec in
lemma agree_of_arity (hbad : cmd.args.length < spec.minArgs ∨ cmd.args.length > spec.maxArgs)
    (halike : Alike m₁ amb.env.now cmd) :
    Agree H members router n r w s₁ s₂ k m₁ m₂ amb cmd := by
  have hhandle : ∀ x : Handler σ, handle H x amb cmd = (some (.error
      (ascii "ERR wrong number of arguments for '" ++ cmd.name ++ ascii "'")), x) := by
    intro x
    simp only [handle, hspec, if_pos hbad]
  unfold Agree
  rw [hhandle, hhandle]
  exact ⟨iff_of_true rfl halike, fun _ => ⟨m₁, m₂, rfl, rfl, h.mono⟩⟩

include hs h halone in
lemma agree_get (hcmd : toUpper cmd.name = ascii "GET") :
    Agree H members router n r w s₁ s₂ k m₁ m₂ amb cmd := by
  have hset : ascii "GET" ≠ ascii "SET" := by decide
  have hdel : ascii "GET" ≠ ascii "DEL" := by decide
  have hname : toUpper cmd.name ∈ clientCommands := by simp [hcmd, clientCommands]
  have hspec : commands (toUpper cmd.name) = some ⟨1, 1, true, .get⟩ := by
    rw [hcmd]
    rfl
  have halike : Alike m₁ amb.env.now cmd ↔ ∀ key, cmd.args = [key] →
      ∀ e : Entry, m₁.data[key]? = some e → e.expired amb.env.now = false :=
    ⟨fun ha => ha.get hcmd, fun ha =>
      ⟨fun _ => ha, fun hname => absurd (hcmd.symm.trans hname) hdel,
        fun hname => absurd (hcmd.symm.trans hname) hset⟩⟩
  by_cases hone : cmd.args.length = 1
  · obtain ⟨key, hargs⟩ := List.length_eq_one_iff.mp hone
    refine agree_of_tracks H n r w amb halone hname hspec members hone.ge hone.le ?_ ?_
      (P := ∀ e : Entry, m₁.data[key]? = some e → e.expired amb.env.now = false)
    · rw [halike, hargs]
      simp
    · simp only [Coordinator.coordinate, hcmd, if_neg hset, if_neg hdel, if_true, hargs]
      exact tracks_get H n r w amb hs h halone key
  · refine agree_of_arity H n r w amb h hspec members (by dsimp only; omega) (halike.mpr ?_)
    intro key hargs
    simp [hargs] at hone

include hs h hk halone in
lemma agree_set (hcmd : toUpper cmd.name = ascii "SET") (hroomy : Roomy router.self s₁ s₂ cmd) :
    Agree H members router n r w s₁ s₂ k m₁ m₂ amb cmd := by
  have hget : ascii "SET" ≠ ascii "GET" := by decide
  have hdel : ascii "SET" ≠ ascii "DEL" := by decide
  have hname : toUpper cmd.name ∈ clientCommands := by simp [hcmd, clientCommands]
  have hspec : commands (toUpper cmd.name) = some ⟨2, 4, true, .set⟩ := by
    rw [hcmd]
    rfl
  have halike : Alike m₁ amb.env.now cmd ↔ (2 ≤ cmd.args.length → cmd.args.length ≤ 4 →
      cmd.args.length = 2 ∨ ∃ key value option number n t,
        cmd.args = [key, value, option, number] ∧ atoi number = some n ∧ ttl option n = some t ∧
          0 < t) :=
    ⟨fun ha => ha.set hcmd, fun ha => ⟨fun hname => absurd (hcmd.symm.trans hname) hget,
      fun hname => absurd (hcmd.symm.trans hname) hdel, fun _ => ha⟩⟩
  by_cases hlen : 2 ≤ cmd.args.length ∧ cmd.args.length ≤ 4
  · obtain ⟨key, value, rest, hargs⟩ : ∃ key value rest, cmd.args = key :: value :: rest := by
      match hargs : cmd.args, hlen.1 with
      | key :: value :: rest, _ => exact ⟨key, value, rest, rfl⟩
    obtain ⟨hroom, hvalue, hsize⟩ := hroomy hcmd key value rest hargs
    refine agree_of_tracks H n r w amb halone hname hspec members hlen.1 hlen.2 ?_ ?_
      (P := cmd.args.length = 2 ∨ ∃ key value option number n t,
        cmd.args = [key, value, option, number] ∧ atoi number = some n ∧ ttl option n = some t ∧
          0 < t)
    · rw [halike]
      exact ⟨fun hgood _ _ => hgood, fun hgood => hgood hlen.1 hlen.2⟩
    · simp only [Coordinator.coordinate, hcmd, if_true, hargs, List.getD_cons_zero,
        List.getD_cons_succ]
      have hrest : rest.length ≤ 2 := by
        have hmax := hlen.2
        rw [hargs, List.length_cons, List.length_cons] at hmax
        omega
      exact tracks_set H n r w amb hs h hk halone hrest hroom hvalue hsize
  · refine agree_of_arity H n r w amb h hspec members (by dsimp only; omega) (halike.mpr ?_)
    intro hmin hmax
    exact absurd ⟨hmin, hmax⟩ hlen

include hs h hk halone in
lemma agree_del (hcmd : toUpper cmd.name = ascii "DEL") :
    Agree H members router n r w s₁ s₂ k m₁ m₂ amb cmd := by
  have hget : ascii "DEL" ≠ ascii "GET" := by decide
  have hset : ascii "DEL" ≠ ascii "SET" := by decide
  have hname : toUpper cmd.name ∈ clientCommands := by simp [hcmd, clientCommands]
  have hspec : commands (toUpper cmd.name) = some ⟨1, 1, true, .del⟩ := by
    rw [hcmd]
    rfl
  have halike : Alike m₁ amb.env.now cmd ↔ ∀ key, cmd.args = [key] →
      key.length ≠ 0 ∧ key.length ≤ m₁.maxKeySize :=
    ⟨fun ha => ha.del hcmd, fun ha => ⟨fun hname => absurd (hcmd.symm.trans hname) hget,
      fun _ => ha, fun hname => absurd (hcmd.symm.trans hname) hset⟩⟩
  by_cases hone : cmd.args.length = 1
  · obtain ⟨key, hargs⟩ := List.length_eq_one_iff.mp hone
    refine agree_of_tracks H n r w amb halone hname hspec members hone.ge hone.le ?_ ?_
      (P := key.length ≠ 0 ∧ key.length ≤ m₁.maxKeySize)
    · rw [halike, hargs]
      simp
    · simp only [Coordinator.coordinate, hcmd, if_neg hset, if_true, hargs]
      exact tracks_del H n r w amb hs h hk halone key
  · refine agree_of_arity H n r w amb h hspec members (by dsimp only; omega) (halike.mpr ?_)
    intro key hargs
    simp [hargs] at hone

include hs h hk halone in
/-- **One command**: the replies are the same exactly if `Alike` holds. -/
lemma agree_command (hname : toUpper cmd.name ∈ clientCommands)
    (hroomy : Roomy router.self s₁ s₂ cmd) :
    Agree H members router n r w s₁ s₂ k m₁ m₂ amb cmd := by
  have hcase : toUpper cmd.name = ascii "GET" ∨ toUpper cmd.name = ascii "SET" ∨
      toUpper cmd.name = ascii "DEL" := by
    simpa [clientCommands] using hname
  rcases hcase with hcmd | hcmd | hcmd
  · exact agree_get H n r w amb hs h halone members hcmd
  · exact agree_set H n r w amb hs h hk halone members hcmd hroomy
  · exact agree_del H n r w amb hs h hk halone members hcmd

end OneCommand

/-! ### Whole scripts -/

lemma replies_iff {members : Option Membership.Members} {router : Router} {n r w : ℕ}
    (halone : router.Alone) {s₁ s₂ : MapStore σ} (hs : Paired router.self s₁ s₂)
    {script : List (Ambient × Command)} (hnames : ∀ e ∈ script, toUpper e.2.name ∈ clientCommands)
    (hroomy : ∀ e ∈ script, Roomy router.self s₁ s₂ e.2) {k : ℕ} {m₁ m₂ : MapStore σ}
    (h : Mirrors router.self s₁ s₂ k m₁ m₂) (hk : k + script.length < 2 ^ 64) :
    replies H (standalone m₁) script = replies H (clustered members router n r w m₂) script ↔
      AllAlike H m₁ script := by
  induction script generalizing k m₁ m₂ with
  | nil => exact iff_of_true rfl trivial
  | cons e rest ih =>
    obtain ⟨amb, cmd⟩ := e
    rw [List.length_cons] at hk
    obtain ⟨hreply, hnext⟩ := agree_command H n r w amb hs h (by omega) halone members
      (hnames _ List.mem_cons_self) (hroomy _ List.mem_cons_self)
    simp only [replies, AllAlike, List.cons.injEq, hreply]
    refine and_congr_right fun halike => ?_
    obtain ⟨m₁', m₂', h₁, h₂, hmirrors⟩ := hnext halike
    rw [h₁, h₂]
    exact ih (fun x hx => hnames x (List.mem_cons_of_mem _ hx))
      (fun x hx => hroomy x (List.mem_cons_of_mem _ hx)) hmirrors (by omega)

/-- **A cluster of one answers like a standalone node exactly if** no `SET` of the script has other
options than an expiry, no `GET` comes after the expiry of its key, and no `DEL` is about a key that
cannot be stored. The stores are empty, and have room for the versions. -/
theorem cluster_of_one_agrees_iff (members : Option Membership.Members) {router : Router}
    (halone : router.Alone) (n r w : ℕ) {s₁ s₂ : MapStore σ} (hs : Paired router.self s₁ s₂)
    (script : List (Ambient × Command)) (hnames : ∀ e ∈ script, toUpper e.2.name ∈ clientCommands)
    (hroomy : ∀ e ∈ script, Roomy router.self s₁ s₂ e.2) (hlen : script.length < 2 ^ 64) :
    replies H (standalone s₁) script = replies H (clustered members router n r w s₂) script ↔
      AllAlike H s₁ script :=
  replies_iff H halone hs hnames hroomy (mirrors_of_paired hs) (by omega)

/-- A command that is issued at a time. -/
def issued (now : ℕ) (name : String) (args : List String) : Ambient × Command :=
  ({ env := ⟨now, default, default⟩ }, ⟨ascii name, args.map ascii⟩)

/-- The router of a cluster of one, with one point on its ring. -/
def soleRouter : Router := { self := ascii "a", ring := rebuild 1 SortFunc.insertion [ascii "a"] }

lemma paired_default : Paired soleRouter.self ({ state := () } : MapStore Unit) { state := () } :=
  ⟨rfl, rfl, rfl, rfl, rfl, by decide, by decide⟩

/-- The options of a `SET` are read by one of the two only, and so is the key of a `DEL`. -/
theorem cluster_of_one_differs :
    let script := [issued 1 "SET" ["k", "v", "PX", "1"], issued (10 ^ 7) "GET" ["k"],
      issued (10 ^ 7) "SET" ["k", "v", "XX"], issued (10 ^ 7) "DEL" [""]]
    replies sha256 (standalone ({ state := () } : MapStore Unit)) script =
        [some (.simpleString (ascii "OK")), some (.bulkString none),
          some (.error (ascii "ERR syntax error")), some (.integer 0)] ∧
      replies sha256 (clustered none soleRouter 3 2 2 ({ state := () } : MapStore Unit)) script =
        [some (.simpleString (ascii "OK")), some (.bulkString (some (ascii "v"))),
          some (.simpleString (ascii "OK")),
          some (.error (ascii "ERR store: key must not be empty"))] := by
  decide +kernel

/-- A script with an expiry that is not reached. -/
def calmScript : List (Ambient × Command) :=
  [issued 1 "SET" ["k", "v", "EX", "5"], issued 2 "GET" ["k"], issued 3 "DEL" ["k"],
    issued 4 "GET" ["k"]]

theorem cluster_of_one_agrees_calm :
    soleRouter.Alone ∧ (∀ e ∈ calmScript, toUpper e.2.name ∈ clientCommands) ∧
      (replies sha256 (standalone ({ state := () } : MapStore Unit)) calmScript =
          replies sha256 (clustered none soleRouter 3 2 2 { state := () }) calmScript ↔
        AllAlike sha256 ({ state := () } : MapStore Unit) calmScript) := by
  have halone : soleRouter.Alone := alone_rebuild 1 SortFunc.insertion (ascii "a")
  have hnames : ∀ e ∈ calmScript, toUpper e.2.name ∈ clientCommands := by decide
  have hroomy : ∀ e ∈ calmScript, Roomy soleRouter.self ({ state := () } : MapStore Unit)
      ({ state := () } : MapStore Unit) e.2 := by
    intro e he
    simp only [calmScript, List.mem_cons, List.not_mem_nil, or_false] at he
    rcases he with rfl | rfl | rfl | rfl
    · rintro - key value rest hargs
      obtain ⟨rfl, rfl, rfl⟩ : key = _ ∧ value = _ ∧ rest = _ := by
        simpa [issued, eq_comm] using hargs
      decide
    all_goals
      intro hname
      exact absurd hname (by decide)
  exact ⟨halone, hnames, cluster_of_one_agrees_iff sha256 none halone 3 2 2 paired_default
    calmScript hnames hroomy (by decide)⟩

end Kyria.Server
