import Kyria.Cluster.Convergence

/-!
A coordinated write replaces the sibling set it finds (`Coordinator.write`, `delete`).

The version it mints descends from every version it has read, however many there are and however
they are related, so that reconciling leaves it alone. It is stored and sent to the other owners,
or the store refuses it and nothing happens.
-/

namespace Kyria.Cluster

open Std (ExtTreeMap)
open Kyria.Lib.Cursor Kyria.Lib.Maxima
open Kyria.Vclock Kyria.Version Kyria.Binenc Kyria.Store Kyria.Store.MapStore Kyria.Replica
open Kyria.Protocol Kyria.Coordinator

variable {σ : Type}

/-! ### The minted version -/

/-- The largest counter the versions have for a node. -/
def highest (vs : List Version) (n : Bytes) : ℕ := (vs.map fun v => clk v n).foldr max 0

lemma highest_le {vs : List Version} {n : Bytes} {b : ℕ} :
    highest vs n ≤ b ↔ ∀ v ∈ vs, clk v n ≤ b := by
  unfold highest
  induction vs with
  | nil => simp
  | cons v vs ih =>
    rw [List.map_cons, List.foldr_cons, max_le_iff, ih, List.forall_mem_cons]

lemma counter_frontier (vs : List Version) (n : Bytes) :
    counter (frontier vs) n = highest vs n :=
  le_antisymm (counter_frontier_le.mpr (highest_le.mp le_rfl))
    (highest_le.mpr (counter_frontier_le.mp le_rfl))

lemma counter_newClock {vs : List Version} {self : Bytes}
    (hsmall : ∀ w ∈ vs, clk w self < 2 ^ 64 - 1) (n : Bytes) :
    counter (newClock self vs) n = highest vs n + if n = self then 1 else 0 := by
  rw [newClock, counter_increment, counter_frontier, counter_frontier]
  by_cases hn : n = self
  · subst hn
    have hle : highest vs n ≤ 2 ^ 64 - 2 := highest_le.mpr fun w hw => by
      have := hsmall w hw
      omega
    rw [if_pos rfl, if_pos rfl, Nat.mod_eq_of_lt (by omega)]
  · rw [if_neg (Ne.symm hn), if_neg hn, Nat.add_zero]

lemma clk_lt_newClock {vs : List Version} {self : Bytes}
    (hsmall : ∀ w ∈ vs, clk w self < 2 ^ 64 - 1) {w : Version} (hw : w ∈ vs) :
    clk w < counter (newClock self vs) := by
  refine Pi.lt_def.mpr ⟨fun n => ?_, self, ?_⟩
  · rw [counter_newClock hsmall]
    exact (highest_le.mp le_rfl w hw).trans (Nat.le_add_right _ _)
  · rw [counter_newClock hsmall, if_pos rfl]
    exact Nat.lt_succ_of_le (highest_le.mp le_rfl w hw)

lemma reconcile_of_lt {vs : List Version} {v : Version} (h : ∀ w ∈ vs, clk w < clk v) :
    reconcile vs v = [v] := by
  classical
  have hnone : vs.filter (fun w => ¬ clk w < clk v) = [] :=
    List.filter_eq_nil_iff.mpr fun w hw => by simpa using h w hw
  have huncovered : ¬ Covers clk vs (clk v) := by
    rintro ⟨w, hw, hle⟩
    exact absurd (h w hw) (not_lt_of_ge hle)
  rw [reconcile_eq_absorb, absorb, if_neg huncovered]
  convert List.nil_append [v]

lemma fits_of_accepts {m : MapStore σ} {key self : Bytes} {o : ClockOrder} {vs : List Version}
    {v : Version} (hacc : m.Accepts key (encode o [v])) (hlim : m.maxValueSize < 2 ^ 32)
    (hself : self.length ≤ maxUint16) (hvs : ∀ w ∈ vs, Fits w) (hclock : v.clock = newClock self vs)
    (hstamp : v.deleted = false → v.deletedAt = 0) : Fits v where
  value := by
    have hlen : v.value.length ≤ (encode o [v]).length := by
      simp only [encode, encodeVersion, List.zipIdx_singleton, List.flatMap_cons, List.flatMap_nil,
        List.length_append]
      omega
    exact lt_of_le_of_lt (hlen.trans hacc.2.2) hlim
  clock := by
    have hlen := sum_size_le_length_encode o [v]
    have hle := hacc.2.2
    simp only [List.map_cons, List.map_nil, List.sum_cons, List.sum_nil] at hlen
    omega
  ids := by
    rw [hclock, ids_iff]
    intro n hn
    rcases ExtTreeMap.mem_insert.mp hn with he | hn
    · rw [Std.LawfulEqOrd.compare_eq_iff_eq] at he
      exact he ▸ hself
    · obtain ⟨w, hw, hnw⟩ := mem_of_mem_frontier hn
      exact ids_iff.mp (hvs w hw).ids n hnw
  stamp := hstamp

/-! ### The local apply -/

/-- **The local apply** on a store that holds any versions: they are replaced by the new one, or
the store refuses it. -/
lemma mint_collapses {m : MapStore σ} {env : Env} {self key : Bytes} {mk : Clock → Version}
    {existing : List Version} (hold : decode ((m.get env.now key).1.getD []) = .ok existing)
    (hsmall : ∀ w ∈ existing, clk w self < 2 ^ 64 - 1) (hmk : ∀ c, (mk c).clock = c) :
    let v := mk (newClock self existing)
    (m.Accepts key (encode env.clocks [v]) ∧ (mint m env self key mk).1 = .ok (existing, v) ∧
      (mint m env self key mk).2.blob key = encode env.clocks [v]) ∨
    (¬ m.Accepts key (encode env.clocks [v]) ∧ (∃ err, (mint m env self key mk).1 = .error err) ∧
      (mint m env self key mk).2.blob key = m.blob key) := by
  intro v
  have hexisting : siblingsOf ((m.get env.now key).1.getD []) = existing := by
    rw [siblingsOf, hold]
  have hreconcile : reconcile existing v = [v] := by
    refine reconcile_of_lt fun w hw => ?_
    have hlt := clk_lt_newClock hsmall hw
    rw [← hmk (newClock self existing)] at hlt
    exact hlt
  have hcases := updateReplica_cases m env.entries env.now key fun old =>
    encode env.clocks (reconcile (siblingsOf old) (mk (newClock self (siblingsOf old))))
  rw [hexisting, hreconcile] at hcases
  simp only [mint, revise, hexisting]
  rcases hcases with ⟨err, hacc, heq⟩ | ⟨m', hacc, heq, hst⟩
  · rw [heq]
    exact .inr ⟨hacc, ⟨err, rfl⟩, (get_keeps m env.now key key).blob⟩
  · rw [heq]
    obtain ⟨hint, hhere⟩ := hst.here rfl
    exact .inl ⟨hacc, rfl, by simp [MapStore.blob, hhere]⟩

/-- What a request has done up to the point where it waits for acks. If the store takes the new
version, it is all the key holds, and a blob of it goes to each of the other owners; otherwise the
key holds what it held, and nothing is sent. -/
def Replaced (cfg : Config σ) (s s' : State σ) (self : Bytes) (owners : Owners) (env : Env)
    (kind : WriteKind) (v : Version) : Prop :=
  if (s.node self).store.Accepts cfg.key (encode env.clocks [v]) then
    decode ((s'.node self).store.blob cfg.key) = .ok [v] ∧
    (∃ blob, decode blob = .ok [v] ∧
      s'.calls = s.calls ++ fanOutCalls self s.writes.length blob (peersExcept owners self)) ∧
    ∃ op, s'.writes = s.writes ++ [op] ∧ op.kind = kind ∧ op.version = v
  else
    (s'.node self).store.blob cfg.key = (s.node self).store.blob cfg.key ∧
    s'.calls = s.calls ∧ s'.writes = s.writes

lemma replaced_fanOut {cfg : Config σ} {s : State σ} {self : Bytes} (hself : self ∈ cfg.nodes)
    (hlim : (s.node self).store.maxValueSize = cfg.blank.maxValueSize) (owners : Owners) {env : Env}
    (o : ClockOrder) {existing : List Version}
    (hold : decode (((s.node self).store.get env.now cfg.key).1.getD []) = .ok existing)
    (hsmall : ∀ w ∈ existing, clk w self < 2 ^ 64 - 1) (mk : Clock → Version)
    (hmk : ∀ c, (mk c).clock = c) (hstamp : ∀ c, (mk c).deleted = false → (mk c).deletedAt = 0)
    (f : List Version × Version → WriteKind) :
    Replaced cfg s
      (fanOut cfg s self owners o
        ((mint (s.node self).store env self cfg.key mk).1.map fun r => (f r, r.2),
          (mint (s.node self).store env self cfg.key mk).2))
      self owners env (f (existing, mk (newClock self existing)))
      (mk (newClock self existing)) := by
  have hmint := mint_collapses hold hsmall hmk
  generalize mint (s.node self).store env self cfg.key mk = r at hmint ⊢
  obtain ⟨res, m'⟩ := r
  unfold Replaced
  rcases hmint with ⟨hacc, rfl, hblob⟩ | ⟨hacc, ⟨err, rfl⟩, hblob⟩
  · have hfits : Fits (mk (newClock self existing)) :=
      fits_of_accepts hacc (hlim ▸ cfg.limit) (cfg.ids self hself) (fits_of_decode hold) (hmk _)
        (hstamp _)
    rw [if_pos hacc]
    refine ⟨?_, ⟨_, decode_encode o hfits.encodable, rfl⟩, _, rfl, rfl, rfl⟩
    have hstore : ((fanOut cfg s self owners o (.ok (f (existing, mk (newClock self existing)),
        mk (newClock self existing)), m')).node self).store = m' := by
      simp [fanOut, State.update, State.setNode]
    simp only [Except.map, hstore, hblob]
    exact decode_encode env.clocks hfits.encodable
  · rw [if_neg hacc]
    refine ⟨?_, rfl, rfl⟩
    simpa [Except.map, fanOut, State.setStore, State.setNode] using hblob

/-- **A coordinated write collapses all siblings**, whatever list of versions the stored blob
holds. The new clock is after all of theirs, their maximum on all other nodes and one more on the
own one. What is stored is the new version alone, or a tombstone with the time of the call, and it
is what the peers are sent; `delete` reports whether there was a live version. If the store refuses
the blob, nothing has happened. -/
theorem write_collapses_siblings (cfg : Config σ) (s : State σ) {self : Bytes}
    (hself : self ∈ cfg.nodes)
    (hlim : (s.node self).store.maxValueSize = cfg.blank.maxValueSize) (owners : Owners) (env : Env)
    (o : ClockOrder) {existing : List Version}
    (hold : decode (((s.node self).store.get env.now cfg.key).1.getD []) = .ok existing)
    (hsmall : ∀ w ∈ existing, counter w.clock self < 2 ^ 64 - 1) :
    let clock := newClock self existing
    (∀ w ∈ existing, Clock.compare clock w.clock = .after) ∧
    (∀ n, counter clock n = highest existing n + if n = self then 1 else 0) ∧
    (∀ value, Replaced cfg s
      (fanOut cfg s self owners o (writeLocal (s.node self).store env self cfg.key value))
      self owners env .write { value, clock }) ∧
    ∀ called, Replaced cfg s
      (fanOut cfg s self owners o (deleteLocal (s.node self).store env self cfg.key called))
      self owners env (.delete (if ∃ w ∈ existing, w.deleted = false then 1 else 0))
      (tombstone clock (Time.unix called)) := by
  intro clock
  refine ⟨fun w hw => ?_, counter_newClock hsmall, fun value => ?_, fun called => ?_⟩
  · exact (compare_eq_after_iff { value := [], clock } w).mpr (clk_lt_newClock hsmall hw)
  · exact replaced_fanOut hself hlim owners o hold hsmall (fun clock => { value, clock })
      (fun _ => rfl) (fun _ _ => rfl) fun _ => .write
  · have hlive : (live existing).length > 0 ↔ ∃ w ∈ existing, w.deleted = false := by
      rw [gt_iff_lt, List.length_pos_iff_exists_mem]
      simp [live]
    have hreplaced := replaced_fanOut hself hlim owners o hold hsmall
      (fun clock => tombstone clock (Time.unix called)) (fun _ => rfl)
      (fun _ hd => by simp [tombstone] at hd)
      fun r => .delete (if (live r.1).length > 0 then 1 else 0)
    simp only [hlive] at hreplaced
    exact hreplaced

/-- Two versions that were written at once, on every node. -/
def split : State Unit where
  node _ := { store :=
    { state := (), data := (∅ : ExtTreeMap Bytes Entry).insert (ascii "k")
        ⟨encode default [first, second], 0, 0⟩ } }

lemma decode_split (now : ℕ) :
    decode (((split.node (ascii "a")).store.get now pair.key).1.getD []) = .ok [first, second] := by
  have hget : ((split.node (ascii "a")).store.get now pair.key).1.getD [] =
      encode default [first, second] := by
    rw [getD_get_of_permanent fun e he => ?_]
    · rfl
    · simp only [split, pair, ExtTreeMap.getElem?_insert_self, Option.some.injEq] at he
      rw [← he]
  rw [hget]
  refine decode_encode default ⟨by decide, fun v hv => ?_⟩
  rcases List.mem_pair.mp hv with rfl | rfl <;>
    exact ⟨by decide, by decide, by decide, fun _ => rfl⟩

/-- A write on top of the two siblings leaves its own version, and one blob goes out. -/
theorem write_collapses_siblings_of_pair :
    let clock := newClock (ascii "a") [first, second]
    let s' := fanOut pair split (ascii "a") pair.nodes default
      (writeLocal (split.node (ascii "a")).store default (ascii "a") pair.key (ascii "3"))
    (∀ w ∈ [first, second], Clock.compare clock w.clock = .after) ∧
      decode ((s'.node (ascii "a")).store.blob pair.key) = .ok [{ value := ascii "3", clock }] ∧
      s'.calls.length = 1 := by
  intro clock s'
  obtain ⟨hafter, -, hwrite, -⟩ := write_collapses_siblings pair split (by decide) rfl
    pair.nodes default default (decode_split _) (by decide +kernel)
  have hreplaced := hwrite (ascii "3")
  unfold Replaced at hreplaced
  rw [if_pos (by decide +kernel)] at hreplaced
  obtain ⟨hblob, ⟨blob, -, hcalls⟩, -⟩ := hreplaced
  exact ⟨hafter, hblob, congrArg List.length hcalls⟩

end Kyria.Cluster
