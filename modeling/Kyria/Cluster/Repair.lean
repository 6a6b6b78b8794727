import Kyria.Cluster.Effects
import Kyria.Coordinator.Read

/-!
Read repair (`Coordinator.readRepair`) on the stores of the responders of one read.

The coordinator folds the merged set into its own store with one update, and into a peer's with
one `RSET` for each version; either way the set of the responder absorbs the merged set. Between
any two repairs a responder may fold in what others send it.
-/

namespace Kyria.Cluster

open Std (ExtTreeMap)
open Kyria.Lib.Cursor Kyria.Lib.MapOrder Kyria.Lib.Maxima Kyria.Lib.Runs
open Kyria.Vclock Kyria.Version Kyria.Binenc Kyria.Store Kyria.Replica
open Kyria.Protocol Kyria.Coordinator

variable {σ : Type}

/-- The node whose store a repair changes. -/
def target (self : Bytes) : Repair → Bytes
  | .own _ => self
  | .push addr _ => addr

/-- One repair of the store it is for, and whether it was acknowledged; `o` is the order in which
the coordinator encodes a version. -/
def mend (m : MapStore σ) (key : Bytes) (env : Env) (o : ClockOrder) : Repair → Bool × MapStore σ
  | .own merged =>
    let r := foldIn m env key merged
    (r.1.isOk, r.2)
  | .push _ v =>
    let r := rset m env key (encode o [v])
    (r.1 = .simpleString (ascii "OK"), r.2)

/-- The stores of the nodes and what is left of the repairs of one read. -/
structure Repairing (σ : Type) where
  stores : Bytes → MapStore σ
  todo : List Repair

/-- The next repair, an `RSET` from elsewhere, or a fold of what anti-entropy has fetched. -/
inductive RepairAction
  | next (env : Env) (o : ClockOrder)
  | rset (addr blob : Bytes) (env : Env)
  | fold (addr blob : Bytes) (env : Env)

def Repairing.setStore (s : Repairing σ) (addr : Bytes) (m : MapStore σ) : Repairing σ :=
  { s with stores := Function.update s.stores addr m }

def repairStep (key self : Bytes) (s : Repairing σ) : RepairAction → Option (Repairing σ)
  | .next env o =>
    match s.todo with
    | [] => none
    | r :: todo =>
      some { s.setStore (target self r) (mend (s.stores (target self r)) key env o r).2 with todo }
  | .rset addr blob env => some (s.setStore addr (rset (s.stores addr) env key blob).2)
  | .fold addr blob env =>
    some (s.setStore addr (foldIn (s.stores addr) env key (siblingsOf blob)).2)

/-- The next repair, and it is acknowledged. -/
def Acknowledged (key self : Bytes) (s : Repairing σ) : RepairAction → Prop
  | .next env o => ∀ r ∈ s.todo.head?, (mend (s.stores (target self r)) key env o r).1 = true
  | _ => False

/-! ### One repair -/

variable {key self : Bytes}

lemma mend_spec {m : MapStore σ} (h : Intact m key) (env : Env) (o : ClockOrder) {r : Repair}
    (hfit : ∀ v ∈ repairVersions r, Fits v) :
    Intact (mend m key env o r).2 key ∧
      (siblings (mend m key env o r).2 key = (repairVersions r).foldl reconcile (siblings m key) ∨
        (mend m key env o r).1 = false ∧ siblings (mend m key env o r).2 key = siblings m key) := by
  cases r with
  | own merged =>
    obtain ⟨hi, ⟨-, hs⟩ | ⟨err, herr, hs⟩⟩ := foldIn_spec h env hfit
    · exact ⟨hi, .inl hs⟩
    · have hrefused : (mend m key env o (.own merged)).1 = false := by
        have herr : (foldIn m env key merged).1 = .error err := herr
        simp [mend, herr, Except.isOk, Except.toBool]
      exact ⟨hi, .inr ⟨hrefused, hs⟩⟩
  | push addr v =>
    have henc : Encodable [v] := ⟨by simp, hfit⟩
    obtain ⟨hi, ⟨-, hs⟩ | ⟨hne, hs⟩⟩ := rset_spec h env (encode o [v])
    · rw [siblingsOf_encode o henc] at hs
      exact ⟨hi, .inl hs⟩
    · exact ⟨hi, .inr ⟨decide_eq_false hne, hs⟩⟩

/-- The set has absorbed some versions. -/
def Absorbed (S T : List Version) : Prop := ∃ vs : List Version, T = vs.foldl reconcile S

lemma Absorbed.refl (S : List Version) : Absorbed S S := ⟨[], rfl⟩

lemma Absorbed.trans {S T U : List Version} (h₁ : Absorbed S T) (h₂ : Absorbed T U) :
    Absorbed S U := by
  obtain ⟨vs, rfl⟩ := h₁
  obtain ⟨ws, rfl⟩ := h₂
  exact ⟨vs ++ ws, List.foldl_append.symm⟩

lemma Absorbed.covered {S T : List Version} (h : Absorbed S T) {v : Version} (hv : v ∈ S) :
    ∃ w ∈ T, Clock.compare w.clock v.clock = .after ∨ Clock.compare w.clock v.clock = .equal := by
  obtain ⟨vs, rfl⟩ := h
  rw [reconcile_eq]
  have hcov : Covers clk S (clk v) := Covers.of_mem hv
  obtain ⟨w, hw, hle⟩ := hcov.foldl vs
  exact ⟨w, hw, (compare_eq_after_or_equal_iff w v).mpr hle⟩

/-- A node stores a sibling set that has absorbed some versions since it was `S`. -/
structure Grown (key : Bytes) (S : List Version) (m : MapStore σ) : Prop where
  intact : Intact m key
  absorbed : Absorbed S (siblings m key)

lemma grown_rset {m : MapStore σ} (h : Intact m key) (env : Env) (blob : Bytes) :
    Grown key (siblings m key) (rset m env key blob).2 := by
  obtain ⟨hi, ⟨-, hs⟩ | ⟨-, hs⟩⟩ := rset_spec h env blob
  · exact ⟨hi, siblingsOf blob, hs⟩
  · exact ⟨hi, [], hs⟩

lemma grown_foldIn {m : MapStore σ} (h : Intact m key) (env : Env) {vs : List Version}
    (hvs : ∀ v ∈ vs, Fits v) : Grown key (siblings m key) (foldIn m env key vs).2 := by
  obtain ⟨hi, ⟨-, hs⟩ | ⟨err, -, hs⟩⟩ := foldIn_spec h env hvs
  · exact ⟨hi, vs, hs⟩
  · exact ⟨hi, [], hs⟩

lemma grown_mend {m : MapStore σ} (h : Intact m key) (env : Env) (o : ClockOrder) {r : Repair}
    (hfit : ∀ v ∈ repairVersions r, Fits v) :
    Grown key (siblings m key) (mend m key env o r).2 := by
  obtain ⟨hi, hs | ⟨-, hs⟩⟩ := mend_spec h env o hfit
  · exact ⟨hi, repairVersions r, hs⟩
  · exact ⟨hi, [], hs⟩

/-- **One step of anyone**: the set of every node grows. -/
lemma grown_step {s s' : Repairing σ} {a : RepairAction}
    (hstep : repairStep key self s a = some s') {addr : Bytes} (h : Intact (s.stores addr) key)
    (hfit : ∀ r ∈ s.todo, ∀ v ∈ repairVersions r, Fits v) :
    s'.todo ⊆ s.todo ∧ Grown key (siblings (s.stores addr) key) (s'.stores addr) := by
  have hset : ∀ (a : Bytes) (m : MapStore σ),
      (Intact (s.stores a) key → Grown key (siblings (s.stores a) key) m) →
      Grown key (siblings (s.stores addr) key) ((s.setStore a m).stores addr) := by
    intro a m hm
    by_cases ha : addr = a
    · subst ha
      simpa [Repairing.setStore] using hm h
    · simp only [Repairing.setStore, Function.update_of_ne ha]
      exact ⟨h, Absorbed.refl _⟩
  cases a with
  | next env o =>
    rcases htodo : s.todo with _ | ⟨r, todo⟩
    · simp [repairStep, htodo] at hstep
    · simp only [repairStep, htodo, Option.some.injEq] at hstep
      subst hstep
      exact ⟨by simp, hset _ _ fun hi => grown_mend hi env o fun v => hfit r (by simp [htodo]) v⟩
  | rset a blob env =>
    cases hstep
    exact ⟨List.Subset.refl _, hset _ _ fun hi => grown_rset hi env blob⟩
  | fold a blob env =>
    cases hstep
    exact ⟨List.Subset.refl _,
      hset _ _ fun hi => grown_foldIn hi env fun v hv => fits_of_mem_siblingsOf hv⟩

/-- **A run of anyone's folds**: the set of every node grows. -/
lemma grown_run {s t : Repairing σ} (h : Steps (repairStep key self) (fun _ _ => True) s t)
    {addr : Bytes} (hintact : Intact (s.stores addr) key)
    (hfit : ∀ r ∈ s.todo, ∀ v ∈ repairVersions r, Fits v) :
    t.todo ⊆ s.todo ∧ Grown key (siblings (s.stores addr) key) (t.stores addr) := by
  refine h.invariant (I := fun t => t.todo ⊆ s.todo ∧
    Grown key (siblings (s.stores addr) key) (t.stores addr))
    ⟨List.Subset.refl _, hintact, Absorbed.refl _⟩ ?_
  rintro u a u' ⟨htodo, hi, habs⟩ - hstep
  obtain ⟨htodo', hi', habs'⟩ := grown_step hstep hi fun r hr => hfit r (htodo hr)
  exact ⟨List.Subset.trans htodo' htodo, hi', habs.trans habs'⟩

/-! ### The repairs of one read -/

/-- The versions a repair folds into the set of one node. -/
def versionsFor (self addr : Bytes) (r : Repair) : List Version :=
  if target self r = addr then repairVersions r else []

/-- The repairs in `done` have been acknowledged, and nothing else has happened. -/
structure Mended (key coord : Bytes) (stores : Bytes → MapStore σ) (addr : Bytes)
    (done : List Repair) (t : Repairing σ) : Prop where
  intact : Intact (t.stores addr) key
  set : siblings (t.stores addr) key =
    (done.flatMap (versionsFor coord addr)).foldl reconcile (siblings (stores addr) key)
  untouched : (∀ r ∈ done, target coord r ≠ addr) → t.stores addr = stores addr

lemma Mended.next {stores : Bytes → MapStore σ} {addr : Bytes} {done : List Repair}
    {t t' : Repairing σ} (h : Mended key self stores addr done t) {a : RepairAction}
    (hack : Acknowledged key self t a) (hstep : repairStep key self t a = some t')
    (hfit : ∀ r ∈ t.todo, ∀ v ∈ repairVersions r, Fits v) :
    ∃ r, t.todo = r :: t'.todo ∧ Mended key self stores addr (done ++ [r]) t' := by
  cases a with
  | rset a blob env => exact hack.elim
  | fold a blob env => exact hack.elim
  | next env o =>
    rcases htodo : t.todo with _ | ⟨r, todo⟩
    · simp [repairStep, htodo] at hstep
    · simp only [repairStep, htodo, Option.some.injEq] at hstep
      have hok := hack r (by simp [htodo])
      subst hstep
      refine ⟨r, rfl, ?_⟩
      by_cases ha : target self r = addr
      · subst ha
        obtain ⟨hi, hs | ⟨hrefused, -⟩⟩ := mend_spec h.intact env o (hfit r (by simp [htodo]))
        · refine ⟨by simpa [Repairing.setStore] using hi, ?_, fun hall => ?_⟩
          · simp only [Repairing.setStore, Function.update_self, hs, h.set, List.flatMap_append,
              List.foldl_append, List.flatMap_cons, List.flatMap_nil, List.append_nil, versionsFor,
              if_true]
          · exact absurd rfl (hall r (by simp))
        · rw [hok] at hrefused
          cases hrefused
      · have hstore : (t.setStore (target self r)
            (mend (t.stores (target self r)) key env o r).2).stores addr = t.stores addr :=
          Function.update_of_ne (Ne.symm ha) _ _
        refine ⟨hstore ▸ h.intact, ?_, fun hall => hstore.trans (h.untouched fun r hr => ?_)⟩
        · rw [hstore, h.set]
          simp [versionsFor, ha]
        · exact hall r (List.mem_append_left _ hr)

lemma exists_mended {s t : Repairing σ}
    (h : Steps (repairStep key self) (Acknowledged key self) s t) {addr : Bytes}
    (hintact : Intact (s.stores addr) key)
    (hfit : ∀ r ∈ s.todo, ∀ v ∈ repairVersions r, Fits v) :
    ∃ done, s.todo = done ++ t.todo ∧ Mended key self s.stores addr done t := by
  refine h.invariant (I := fun t => ∃ done, s.todo = done ++ t.todo ∧
    Mended key self s.stores addr done t) ⟨[], rfl, hintact, rfl, fun _ => rfl⟩ ?_
  rintro u a u' ⟨done, hdone, hm⟩ hack hstep
  obtain ⟨r, htodo, hm'⟩ := hm.next hack hstep fun r hr =>
    hfit r (by rw [hdone]; exact List.mem_append_right _ hr)
  exact ⟨done ++ [r], by rw [hdone, htodo, List.append_assoc, List.singleton_append], hm'⟩

section Responders

variable {o : VisitOrder (Bytes × List Version)} {st : ReadState}

lemma mem_readRepair {r : Repair} (h : r ∈ readRepair o self st) :
    ∃ set, st.responders[target self r]? = some set ∧ equal set st.merged = false ∧
      ∀ v ∈ repairVersions r, v ∈ st.merged := by
  obtain ⟨⟨addr, set⟩, hmem, hr⟩ := List.mem_flatMap.mp h
  rw [VisitOrder.mem_visit, ExtTreeMap.mem_toList_iff_getElem?_eq_some] at hmem
  dsimp only at hr
  split_ifs at hr with hequal hself
  · cases hr
  · obtain rfl := List.mem_singleton.mp hr
    exact ⟨set, hself ▸ hmem, by simpa using hequal, fun v hv => hv⟩
  · obtain ⟨v, hv, rfl⟩ := List.mem_map.mp hr
    refine ⟨set, hmem, by simpa using hequal, fun w hw => ?_⟩
    rw [List.mem_singleton.mp hw]
    exact hv

lemma flatMap_of_key {α : Type} {l : List (Bytes × α)}
    (hl : l.Pairwise fun a b => ¬ compare a.1 b.1 = .eq) {e : Bytes × α} (he : e ∈ l)
    {f : Bytes × α → List Version} (hf : ∀ a ∈ l, a.1 ≠ e.1 → f a = []) : l.flatMap f = f e := by
  induction l with
  | nil => cases he
  | cons a l ih =>
    obtain ⟨ha, hl⟩ := List.pairwise_cons.mp hl
    rw [List.flatMap_cons]
    rcases List.mem_cons.mp he with rfl | he
    · have hrest : l.flatMap f = [] := List.flatMap_eq_nil_iff.mpr fun b hb =>
        hf b (List.mem_cons_of_mem _ hb) fun heq => ha b hb (by rw [heq, Std.compare_self])
      rw [hrest, List.append_nil]
    · have hne : a.1 ≠ e.1 := fun heq => ha e he (by rw [heq, Std.compare_self])
      rw [hf a List.mem_cons_self hne, List.nil_append,
        ih hl he fun b hb => hf b (List.mem_cons_of_mem _ hb)]

lemma flatMap_versionsFor {addr : Bytes} {set : List Version}
    (hset : st.responders[addr]? = some set) :
    (readRepair o self st).flatMap (versionsFor self addr) =
      if equal set st.merged then [] else st.merged := by
  have hmem : (addr, set) ∈ o.visit 0 st.responders.toList := by
    rw [VisitOrder.mem_visit, ExtTreeMap.mem_toList_iff_getElem?_eq_some]
    exact hset
  rw [readRepair, List.flatMap_assoc, flatMap_of_key (distinct_of_perm (o.perm 0 _)) hmem]
  · dsimp only
    split_ifs with hequal hself
    · rfl
    · simp [versionsFor, target, hself, repairVersions]
    · simp [versionsFor, target, List.flatMap_map, repairVersions]
  · intro a _ hne
    refine List.flatMap_eq_nil_iff.mpr fun r hr => ?_
    dsimp only at hr hne
    split_ifs at hr with hequal hself
    · cases hr
    · rw [List.mem_singleton.mp hr]
      exact if_neg fun h => hne (hself.trans h)
    · obtain ⟨v, -, rfl⟩ := List.mem_map.mp hr
      exact if_neg hne

lemma readRepair_eq_nil (h : ∀ (addr : Bytes) (set : List Version),
    st.responders[addr]? = some set → equal set st.merged = true) : readRepair o self st = [] := by
  refine List.flatMap_eq_nil_iff.mpr fun ⟨addr, set⟩ hmem => ?_
  rw [VisitOrder.mem_visit, ExtTreeMap.mem_toList_iff_getElem?_eq_some] at hmem
  dsimp only
  rw [if_pos (h addr set hmem)]

end Responders

/-- **A read of sets that agree** reconciles to the own one. -/
lemma merged_of_agreeing (heard : Bytes → Option (List Version)) {own merged : List Version}
    {used : List Bytes} (hself : self ∉ used) (hown : Siblings own)
    (hequal : equal own merged = true)
    (hheard : ∀ addr ∈ used, ∀ vs, heard addr = some vs → Siblings vs ∧ equal vs merged = true) :
    (readAfter heard self own used).merged = own ∧
      ∀ (addr : Bytes) (set : List Version),
        (readAfter heard self own used).responders[addr]? = some set → equal set own = true := by
  have hperm := (equal_iff_perm hown).mp hequal
  have hagree : ∀ addr ∈ used, ∀ vs, heard addr = some vs →
      Siblings vs ∧ (vs.map identity).Perm (own.map identity) := by
    intro addr hin vs hvs
    obtain ⟨hs, he⟩ := hheard addr hin vs hvs
    exact ⟨hs, ((equal_iff_perm hs).mp he).trans hperm.symm⟩
  constructor
  · rw [readAfter, merged_foldl]
    refine foldl_reconcile_of_keys hown fun v hv => ?_
    obtain ⟨addr, hin, vs, hvs, hv⟩ := mem_answered.mp hv
    exact (hagree addr hin vs hvs).2.subset (List.mem_map_of_mem hv)
  · intro addr set hset
    rw [getElem?_responders hself] at hset
    split_ifs at hset with ha hin
    · cases hset
      exact (equal_iff_perm hown).mpr (.refl _)
    · obtain ⟨hs, hp⟩ := hagree addr hin set hset
      exact (equal_iff_perm hs).mpr hp

/-- What a read over the stores of some nodes reconciles, and whose set it has seen. -/
def readStores (key self : Bytes) (stores : Bytes → MapStore σ) (used : List Bytes) : ReadState :=
  readAfter (fun addr => some (siblings (stores addr) key)) self (siblings (stores self) key) used

section Stores

variable {stores : Bytes → MapStore σ} {used : List Bytes} (hself : self ∉ used)

include hself

lemma responders_readStores {addr : Bytes} (h : addr ∈ self :: used) :
    (readStores key self stores used).responders[addr]? = some (siblings (stores addr) key) := by
  rw [readStores, getElem?_responders hself]
  rcases List.mem_cons.mp h with rfl | hin
  · rw [if_pos rfl]
  · have hne : addr ≠ self := by
      rintro rfl
      exact hself hin
    rw [if_neg hne, if_pos hin]

lemma mem_seen_readStores {v : Version} :
    v ∈ (readStores key self stores used).seen ↔
      v ∈ (self :: used).flatMap fun addr => siblings (stores addr) key := by
  rw [readStores, mem_seen_foldl hself, List.flatMap_cons, List.mem_append, List.mem_append,
    mem_answered, List.mem_flatMap]
  simp

lemma isMaxima_readStores (hown : Siblings (siblings (stores self) key)) :
    IsMaxima clk (readStores key self stores used).merged
      {v | v ∈ (self :: used).flatMap fun addr => siblings (stores addr) key} := by
  have hset : {v | v ∈ (self :: used).flatMap fun addr => siblings (stores addr) key} =
      {v | v ∈ (readStores key self stores used).seen} := by
    ext v
    exact (mem_seen_readStores hself).symm
  rw [hset]
  exact isMaxima_merged _ hown hself

lemma fits_readRepair (hown : Siblings (siblings (stores self) key))
    {o : VisitOrder (Bytes × List Version)} {r : Repair}
    (hr : r ∈ readRepair o self (readStores key self stores used)) {v : Version}
    (hv : v ∈ repairVersions r) : Fits v := by
  obtain ⟨-, -, -, hmerged⟩ := mem_readRepair hr
  have hseen := (isMaxima_readStores hself hown).sub v (hmerged v hv)
  obtain ⟨addr, -, hset⟩ := List.mem_flatMap.mp hseen
  exact fits_of_mem_siblings hset

/-- **The responders after the repairs** have sets `Equal` to the merged one. -/
lemma equal_repaired (hsib : ∀ addr ∈ self :: used, Siblings (siblings (stores addr) key))
    (hcons : Consistent ((self :: used).flatMap fun addr => siblings (stores addr) key))
    {o : VisitOrder (Bytes × List Version)} {addr : Bytes} (haddr : addr ∈ self :: used)
    {t : Repairing σ} (h : Mended key self stores addr
      (readRepair o self (readStores key self stores used)) t) :
    Siblings (siblings (t.stores addr) key) ∧
      equal (siblings (t.stores addr) key) (readStores key self stores used).merged = true := by
  have hset := h.set
  rw [flatMap_versionsFor (responders_readStores hself haddr)] at hset
  split_ifs at hset with hequal
  · rw [hset]
    exact ⟨hsib addr haddr, hequal⟩
  · rw [hset]
    refine ⟨siblings_foldl (hsib addr haddr) _, equal_foldl_maxima (hsib addr haddr) ?_
      (isMaxima_readStores hself (hsib self List.mem_cons_self)) hcons⟩
    exact fun v hv => List.mem_flatMap.mpr ⟨addr, haddr, hv⟩

lemma target_ne_of_equal {addr : Bytes} (haddr : addr ∈ self :: used)
    (hequal : equal (siblings (stores addr) key) (readStores key self stores used).merged = true)
    {o : VisitOrder (Bytes × List Version)} {r : Repair}
    (hr : r ∈ readRepair o self (readStores key self stores used)) : target self r ≠ addr := by
  rintro rfl
  obtain ⟨set, hset, hne, -⟩ := mem_readRepair hr
  rw [responders_readStores hself haddr, Option.some.injEq] at hset
  rw [hset, hne] at hequal
  cases hequal

lemma silent_of_equal {merged : List Version}
    (hall : ∀ addr ∈ self :: used, Siblings (siblings (stores addr) key) ∧
      equal (siblings (stores addr) key) merged = true) (o : VisitOrder (Bytes × List Version)) :
    equal (readStores key self stores used).merged merged = true ∧
      readRepair o self (readStores key self stores used) = [] := by
  obtain ⟨hown, hequal⟩ := hall self List.mem_cons_self
  obtain ⟨hmerged, hsets⟩ := merged_of_agreeing (fun addr => some (siblings (stores addr) key))
    hself hown hequal fun addr hin vs hvs => by
      cases hvs
      exact hall addr (List.mem_cons_of_mem _ hin)
  change (readStores key self stores used).merged = _ at hmerged
  refine ⟨by rw [hmerged]; exact hequal, readRepair_eq_nil fun addr set hset => ?_⟩
  rw [hmerged]
  exact hsets addr set hset

end Stores

/-- **Read repair converges and is then silent.** Let a read have heard of any peers, whose sets
and the own one hold the same version where clocks are equal. If all repairs are acknowledged and
nothing else happens, all responders end up with a set `Equal` to the merged one, those that had
one are neither written nor sent anything, and another read of them, in whatever order, finds an
`Equal` set and repairs nobody. And whatever is folded in meanwhile, and whichever repairs fail,
no responder loses a version but to one whose clock is equal or after it. -/
theorem read_repair_converges {stores : Bytes → MapStore σ} {used : List Bytes}
    (hself : self ∉ used) (hintact : ∀ addr ∈ self :: used, Intact (stores addr) key)
    (hsib : ∀ addr ∈ self :: used, Siblings (siblings (stores addr) key))
    (hcons : Consistent ((self :: used).flatMap fun addr => siblings (stores addr) key))
    (o : VisitOrder (Bytes × List Version)) :
    let st := readStores key self stores used
    let start : Repairing σ := { stores, todo := readRepair o self st }
    (∀ t, Steps (repairStep key self) (Acknowledged key self) start t → t.todo = [] →
      (∀ addr ∈ self :: used, equal (siblings (t.stores addr) key) st.merged = true) ∧
      (∀ addr ∈ self :: used, equal (siblings (stores addr) key) st.merged = true →
        t.stores addr = stores addr ∧ ∀ r ∈ readRepair o self st, target self r ≠ addr) ∧
      ∀ used', used'.Perm used → ∀ o',
        let st' := readStores key self t.stores used'
        equal st'.merged st.merged = true ∧ readRepair o' self st' = []) ∧
    ∀ t u, Steps (repairStep key self) (fun _ _ => True) start t →
      Steps (repairStep key self) (fun _ _ => True) t u →
      ∀ addr ∈ self :: used, ∀ v ∈ siblings (t.stores addr) key,
        ∃ w ∈ siblings (u.stores addr) key,
          Clock.compare w.clock v.clock = .after ∨ Clock.compare w.clock v.clock = .equal := by
  intro st start
  have hown := hsib self List.mem_cons_self
  have hfit : ∀ r ∈ start.todo, ∀ v ∈ repairVersions r, Fits v := fun r hr v hv =>
    fits_readRepair hself hown hr hv
  constructor
  · intro t hrun hdone
    have hmended : ∀ addr ∈ self :: used, Mended key self stores addr (readRepair o self st) t := by
      intro addr haddr
      obtain ⟨done, hall, hm⟩ := exists_mended hrun (hintact addr haddr) hfit
      rw [hdone, List.append_nil] at hall
      rwa [← hall] at hm
    have hrepaired : ∀ addr ∈ self :: used, Siblings (siblings (t.stores addr) key) ∧
        equal (siblings (t.stores addr) key) st.merged = true := fun addr haddr =>
      equal_repaired hself hsib hcons haddr (hmended addr haddr)
    refine ⟨fun addr haddr => (hrepaired addr haddr).2, fun addr haddr hequal => ?_, ?_⟩
    · have hnone : ∀ r ∈ readRepair o self st, target self r ≠ addr := fun r hr =>
        target_ne_of_equal hself haddr hequal hr
      exact ⟨(hmended addr haddr).untouched hnone, hnone⟩
    · intro used' hperm o'
      exact silent_of_equal (fun hin => hself (hperm.subset hin))
        (fun addr haddr => hrepaired addr ((hperm.cons self).subset haddr)) o'
  · intro t u hst htu addr haddr v hv
    obtain ⟨htodo, hgrown⟩ := grown_run hst (hintact addr haddr) hfit
    obtain ⟨-, hgrown'⟩ := grown_run htu hgrown.intact fun r hr => hfit r (htodo hr)
    exact hgrown'.absorbed.covered hv

/-- Node `a` has a version that its peer lacks. -/
def lagging (addr : Bytes) : MapStore Unit :=
  if addr = ascii "a" then
    (foldIn { state := () } default (ascii "k")
      [{ value := ascii "1", clock := Clock.increment ∅ (ascii "a") }]).2
  else { state := () }

lemma intact_lagging (addr : Bytes) : Intact (lagging addr) (ascii "k") := by
  have hempty : Intact ({ state := () } : MapStore Unit) (ascii "k") :=
    Intact.of_none (by decide) rfl
  unfold lagging
  split_ifs
  · refine (foldIn_spec hempty default fun v hv => ?_).1
    rw [List.mem_singleton.mp hv]
    exact ⟨by decide, by decide, by decide, fun _ => rfl⟩
  · exact hempty

/-- One push brings the peer up to date. -/
theorem read_repair_converges_of_lagging :
    let st := readStores (ascii "k") (ascii "a") lagging [ascii "b"]
    ∃ t : Repairing Unit, t.todo = [] ∧
      equal (siblings (lagging (ascii "b")) (ascii "k")) st.merged = false ∧
      equal (siblings (t.stores (ascii "b")) (ascii "k")) st.merged = true := by
  intro st
  have htodo : readRepair default (ascii "a") st =
      [.push (ascii "b") { value := ascii "1", clock := Clock.increment ∅ (ascii "a") }] := by
    decide +kernel
  obtain ⟨t, hstep, hdone⟩ : ∃ t, repairStep (ascii "k") (ascii "a")
      { stores := lagging, todo := readRepair default (ascii "a") st } (.next default default) =
        some t ∧ t.todo = [] := by
    simp [repairStep, htodo]
  have hack : Acknowledged (ascii "k") (ascii "a")
      { stores := lagging, todo := readRepair default (ascii "a") st } (.next default default) := by
    intro r hr
    simp only [htodo, List.head?_cons, Option.mem_some_iff] at hr
    subst hr
    decide +kernel
  have hintact : ∀ addr ∈ [ascii "a", ascii "b"], Intact (lagging addr) (ascii "k") :=
    fun addr _ => intact_lagging addr
  obtain ⟨hconv, -⟩ := read_repair_converges (by decide) hintact (by decide +kernel)
    (by decide +kernel) default
  exact ⟨t, hdone, by decide +kernel, (hconv t (.tail _ .refl hack hstep) hdone).1 _ (by decide)⟩

end Kyria.Cluster
