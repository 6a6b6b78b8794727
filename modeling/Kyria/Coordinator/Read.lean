import Kyria.Handler
import Kyria.Version.Equal

/-!
What a coordinated read answers (`internal/server/coordinator.go`).

The peers answer in any order, some of them fail, and the coordinator stops listening as soon as
it has enough. The loop is a fold over a prefix of the results, so that what it counted, what it
reconciled and whom it recorded are read off one list.
-/

namespace Kyria.Coordinator

open Std (ExtTreeMap)
open Kyria.Lib.Cursor Kyria.Lib.MapOrder Kyria.Lib.Maxima
open Kyria.Vclock Kyria.Version Kyria.Store Kyria.Replica Kyria.Protocol

/-- How the `RGET` sent to a peer ends. -/
inductive Outcome
  | failed
  | answered (blob : Bytes)

/-- What the peer's goroutine makes of it: a sibling set, unless the blob does not decode. -/
def Outcome.versions : Outcome → Option (List Version)
  | .failed => none
  | .answered blob =>
    match decode blob with
    | .ok vs => some vs
    | .error _ => none

/-- `read` up to its reply, for a quorum of `r` among given replicas. -/
def readFrom (r : ℕ) (replicas : List Bytes) (self : Bytes) (own : List Version)
    (results : List PeerResult) : Option ReadState :=
  let need := min r replicas.length
  let st := readInit self own
  readLoop need (if st.responses < need then (peersExcept replicas self).length else 0) st results

/-- All versions of the sets on record. -/
def ReadState.seen (st : ReadState) : List Version := st.responders.toList.flatMap Prod.snd

lemma mem_seen {st : ReadState} {v : Version} :
    v ∈ st.seen ↔
      ∃ (addr : Bytes) (vs : List Version), st.responders[addr]? = some vs ∧ v ∈ vs := by
  simp only [ReadState.seen, List.mem_flatMap, Prod.exists,
    ExtTreeMap.mem_toList_iff_getElem?_eq_some]

/-! ### What is known of each peer -/

section Heard

variable (heard : Bytes → Option (List Version))

/-- The results of peers, in the order in which they arrive. -/
def arriving (addrs : List Bytes) : List PeerResult := addrs.map fun addr => (addr, heard addr)

variable {heard}

lemma getElem?_responders_foldl (used : List Bytes) (st : ReadState) (addr : Bytes) :
    ((arriving heard used).foldl ReadState.receive st).responders[addr]? =
      if addr ∈ used ∧ (heard addr).isSome then heard addr else st.responders[addr]? := by
  induction used generalizing st with
  | nil => simp [arriving]
  | cons a used ih =>
    rw [arriving, List.map_cons, List.foldl_cons, ← arriving, ih]
    by_cases hmem : addr ∈ used ∧ (heard addr).isSome
    · rw [if_pos hmem, if_pos ⟨List.mem_cons_of_mem a hmem.1, hmem.2⟩]
    · rw [if_neg hmem]
      rcases hheard : heard a with _ | versions
      · have hnot : ¬ (addr ∈ a :: used ∧ (heard addr).isSome) := by
          rintro ⟨hin, hsome⟩
          rcases List.mem_cons.mp hin with rfl | hin
          · simp [hheard] at hsome
          · exact hmem ⟨hin, hsome⟩
        rw [if_neg hnot]
        rfl
      · simp only [ReadState.receive, ReadState.respond, ExtTreeMap.getElem?_insert,
          Std.LawfulEqOrd.compare_eq_iff_eq]
        by_cases ha : a = addr
        · subst ha
          simp [hheard]
        · have hnot : ¬ (addr ∈ a :: used ∧ (heard addr).isSome) := by
            rintro ⟨hin, hsome⟩
            exact hmem ⟨(List.mem_cons.mp hin).resolve_left (Ne.symm ha), hsome⟩
          rw [if_neg ha, if_neg hnot]

/-- A read that has heard of the peers in `used`. -/
def readAfter (heard : Bytes → Option (List Version)) (self : Bytes) (own : List Version)
    (used : List Bytes) : ReadState :=
  (arriving heard used).foldl ReadState.receive (readInit self own)

variable {self : Bytes} {own : List Version} {used : List Bytes}

lemma getElem?_responders (hself : self ∉ used) (addr : Bytes) :
    (readAfter heard self own used).responders[addr]? =
      if addr = self then some own else if addr ∈ used then heard addr else none := by
  rw [readAfter, getElem?_responders_foldl]
  by_cases ha : addr = self
  · subst ha
    simp [hself, readInit]
  · rw [if_neg ha]
    have hinit : (readInit self own).responders[addr]? = none := by
      simp [readInit, Ne.symm ha]
    rw [hinit]
    by_cases hin : addr ∈ used
    · rcases hheard : heard addr with _ | vs <;> simp [hin]
    · simp [hin]

lemma mem_answered {v : Version} :
    v ∈ answered (arriving heard used) ↔ ∃ addr ∈ used, ∃ vs, heard addr = some vs ∧ v ∈ vs := by
  simp only [answered, arriving, List.mem_flatMap, List.mem_map]
  constructor
  · rintro ⟨_, ⟨addr, hin, rfl⟩, hv⟩
    rcases hheard : heard addr with _ | vs
    · simp [hheard] at hv
    · exact ⟨addr, hin, vs, hheard, by simpa [hheard] using hv⟩
  · rintro ⟨addr, hin, vs, hheard, hv⟩
    exact ⟨_, ⟨addr, hin, rfl⟩, by simpa [hheard] using hv⟩

lemma mem_seen_foldl (hself : self ∉ used) {v : Version} :
    v ∈ (readAfter heard self own used).seen ↔
      v ∈ own ++ answered (arriving heard used) := by
  simp only [mem_seen, getElem?_responders hself, List.mem_append, mem_answered]
  constructor
  · rintro ⟨addr, vs, hget, hv⟩
    split_ifs at hget with ha hin
    · cases hget
      exact .inl hv
    · exact .inr ⟨addr, hin, vs, hget, hv⟩
  · rintro (hv | ⟨addr, hin, vs, hheard, hv⟩)
    · exact ⟨self, own, by rw [if_pos rfl], hv⟩
    · have ha : addr ≠ self := fun h => hself (h ▸ hin)
      exact ⟨addr, vs, by rw [if_neg ha, if_pos hin, hheard], hv⟩

lemma seen_subset (heard : Bytes → Option (List Version)) (own : List Version)
    (hself : self ∉ used) {peers : List Bytes} (hused : used ⊆ peers) :
    (readAfter heard self own used).seen ⊆ own ++ answered (arriving heard peers) := by
  intro v hv
  rcases List.mem_append.mp ((mem_seen_foldl hself).mp hv) with hv | hv
  · exact List.mem_append_left _ hv
  · obtain ⟨addr, hin, hset⟩ := mem_answered.mp hv
    exact List.mem_append_right _ (mem_answered.mpr ⟨addr, hused hin, hset⟩)

lemma responses_readAfter (heard : Bytes → Option (List Version)) (self : Bytes)
    (own : List Version) (used : List Bytes) :
    (readAfter heard self own used).responses =
      1 + used.countP fun addr => (heard addr).isSome := by
  rw [readAfter, responses_foldl, arriving, List.countP_map]
  rfl

lemma size_responders (hself : self ∉ used) (hnodup : used.Nodup) :
    (readAfter heard self own used).responders.size =
      (readAfter heard self own used).responses := by
  induction used using List.reverseRecOn with
  | nil => simp [readAfter, arriving, readInit, ExtTreeMap.size_insert]
  | append_singleton used a ih =>
    obtain ⟨hnodup, -, hdisj⟩ := List.nodup_append.mp hnodup
    have ha : a ∉ used := fun h => hdisj a h a (by simp) rfl
    have hself' : self ∉ used := fun h => hself (by simp [h])
    have hne : a ≠ self := fun h => hself (by simp [h])
    have hnew : a ∉ (readAfter heard self own used).responders := by
      rw [ExtTreeMap.mem_iff_isSome_getElem?, getElem?_responders hself', if_neg hne, if_neg ha]
      simp
    have hsplit : arriving heard (used ++ [a]) = arriving heard used ++ [(a, heard a)] := by
      simp [arriving]
    have hnext : readAfter heard self own (used ++ [a]) =
        (readAfter heard self own used).receive (a, heard a) := by
      rw [readAfter, hsplit, List.foldl_append, ← readAfter, List.foldl_cons, List.foldl_nil]
    rw [hnext]
    rcases hheard : heard a with _ | vs
    · exact ih hself' hnodup
    · simp [ReadState.receive, ReadState.respond, ExtTreeMap.size_insert, hnew, ih hself' hnodup]

lemma responders_eq_of_keys {used' : List Bytes} (hself : self ∉ used) (hself' : self ∉ used')
    (hkeys : ∀ addr,
      addr ∈ (readAfter heard self own used).responders ↔
      addr ∈ (readAfter heard self own used').responders)
    (addr : Bytes) :
    (readAfter heard self own used).responders[addr]? =
      (readAfter heard self own used').responders[addr]? := by
  have hkey := hkeys addr
  rw [ExtTreeMap.mem_iff_isSome_getElem?, ExtTreeMap.mem_iff_isSome_getElem?] at hkey
  rw [getElem?_responders hself, getElem?_responders hself'] at hkey ⊢
  split_ifs at hkey ⊢ with ha hin hin' hin'
  · rfl
  · rfl
  · simpa using hkey
  · exact (by simpa using hkey.symm : heard addr = none).symm
  · rfl

lemma isMaxima_merged (heard : Bytes → Option (List Version)) (hown : Siblings own)
    (hself : self ∉ used) :
    IsMaxima clk (readAfter heard self own used).merged
      {v | v ∈ (readAfter heard self own used).seen} := by
  have hset : {v | v ∈ (readAfter heard self own used).seen} =
      {v | v ∈ own ++ answered (arriving heard used)} := by
    ext v
    exact mem_seen_foldl hself
  rw [hset, readAfter, merged_foldl]
  exact isMaxima_foldl hown _

/-- **The reconciled set** depends on whose sets are on record, not on their order. -/
lemma equal_merged {used' : List Bytes} (hown : Siblings own) (hself : self ∉ used)
    (hself' : self ∉ used')
    (hkeys : (readAfter heard self own used').responders.keys =
      (readAfter heard self own used).responders.keys)
    (hcons : Consistent (readAfter heard self own used).seen) :
    equal (readAfter heard self own used).merged (readAfter heard self own used').merged = true ∧
      (Determined (readAfter heard self own used).seen →
        (readAfter heard self own used).merged.Perm (readAfter heard self own used').merged) := by
  have hrecord : ∀ addr, (readAfter heard self own used).responders[addr]? =
      (readAfter heard self own used').responders[addr]? :=
    responders_eq_of_keys hself hself' fun addr => by
      rw [← ExtTreeMap.mem_keys, ← hkeys, ExtTreeMap.mem_keys]
  have hset : {v | v ∈ (readAfter heard self own used').seen} =
      {v | v ∈ (readAfter heard self own used).seen} := by
    ext v
    simp only [Set.mem_ofPred_eq, mem_seen, hrecord]
  have hmax := isMaxima_merged heard hown hself
  have hmax' := isMaxima_merged heard hown hself'
  rw [hset] at hmax'
  exact ⟨equal_of_isMaxima hmax hmax' hcons,
    fun hdet => hmax.perm hmax' (injOn_of_determined hdet)⟩

lemma exists_readFrom (heard : Bytes → Option (List Version)) (r : ℕ) (replicas : List Bytes)
    (self : Bytes) (own : List Version) {arrivals : List Bytes}
    (hperm : arrivals.Perm (peersExcept replicas self)) :
    ∃ used, used <+: arrivals ∧
      readFrom r replicas self own (arriving heard arrivals) =
        some (readAfter heard self own used) ∧
      ((readAfter heard self own used).responses < min r replicas.length ↔
        1 + (peersExcept replicas self).countP (fun addr => (heard addr).isSome) <
          min r replicas.length) := by
  have hlen : (arriving heard arrivals).length = (peersExcept replicas self).length := by
    rw [arriving, List.length_map, hperm.length_eq]
  have hsome : (readFrom r replicas self own (arriving heard arrivals)).isSome = true :=
    readLoop_isSome _ _ (by split <;> omega)
  obtain ⟨st, hread⟩ := Option.isSome_iff_exists.mp hsome
  obtain ⟨results, hpre, rfl, hend⟩ := foldl_of_readLoop hread
  obtain ⟨used, hused, rfl⟩ := List.prefix_map_iff.mp hpre
  refine ⟨used, hused, hread, ?_⟩
  have hone : (readInit self own).responses = 1 := rfl
  have hcount := responses_readAfter heard self own used
  have hle := hused.sublist.countP_le (p := fun addr => (heard addr).isSome)
  rw [← hperm.countP_eq]
  constructor
  · intro hlt
    have hall := hend.resolve_left (not_le_of_gt hlt)
    rw [List.length_map] at hall
    split_ifs at hall with hmore
    · obtain rfl := hused.eq_of_length (hall.trans hperm.length_eq.symm)
      omega
    · omega
  · omega

end Heard

/-! ### The reply -/

/-- No version among those given has a clock after that of `v`, which is one of them. -/
def ClockMaximal (vs : List Version) (v : Version) : Prop :=
  v ∈ vs ∧ ∀ w ∈ vs, Clock.compare w.clock v.clock ≠ .after

lemma mergedReply_spec {vs merged : List Version} (h : IsMaxima clk merged {v | v ∈ vs})
    (hcons : Consistent vs) :
    (mergedReply merged = .bulkString none ↔ ∀ v, ClockMaximal vs v → v.deleted = true) ∧
    (mergedReply merged ≠ .bulkString none →
      ∃ v, ClockMaximal vs v ∧ v.deleted = false ∧
        mergedReply merged = .bulkString (some v.value)) := by
  have hmax : ∀ v ∈ merged, ClockMaximal vs v := fun v hv =>
    ⟨h.sub v hv, fun w hw hafter => h.not_lt hv hw ((compare_eq_after_iff w v).mp hafter)⟩
  rcases hlive : live merged with _ | ⟨v, rest⟩
  · have hreply : mergedReply merged = .bulkString none := by rw [mergedReply, hlive]
    refine ⟨iff_of_true hreply fun v ⟨hv, hlast⟩ => ?_, fun hne => absurd hreply hne⟩
    -- one with this clock was kept, and it is a tombstone
    obtain ⟨u, ⟨hu, hclk⟩, -⟩ := h.existsUnique hv fun w hw hlt =>
      hlast w hw ((compare_eq_after_iff w v).mpr hlt)
    have hdel : u.deleted = true := by
      have hnot := List.filter_eq_nil_iff.mp hlive u hu
      simpa using hnot
    have hsame := hcons.identity_eq (h.sub u hu) hv hclk
    exact (congrArg (·.2.2) hsame).symm.trans hdel
  · have hv : v ∈ live merged := by rw [hlive]; exact List.mem_cons_self
    obtain ⟨hv, hdel⟩ := List.mem_filter.mp hv
    have hdel : v.deleted = false := by simpa using hdel
    have hreply : mergedReply merged = .bulkString (some v.value) := by rw [mergedReply, hlive]
    refine ⟨iff_of_false (by simp [hreply]) fun hall => ?_, fun _ => ⟨v, hmax v hv, hdel, hreply⟩⟩
    have htrue := hall v (hmax v hv)
    rw [hdel] at htrue
    cases htrue

lemma quorumError_iff (need : ℕ) (st : ReadState) :
    (∃ got, readReply need st = quorumError "read" got need) ↔ st.responses < need := by
  unfold readReply
  split_ifs with hlt
  · exact iff_of_true ⟨_, rfl⟩ hlt
  · refine iff_of_false ?_ hlt
    rintro ⟨got, hgot⟩
    unfold mergedReply at hgot
    split at hgot <;> simp [quorumError] at hgot

lemma self_notMem_peersExcept (replicas : List Bytes) (self : Bytes) :
    self ∉ peersExcept replicas self := by
  simp [peersExcept]

/-- **A read answers with a causally maximal live value**, whatever the order in which the peers
answer. It is the quorum error exactly if too few of the results are usable. Otherwise the reply
is told by the versions on record: a miss if all maximal ones are tombstones, or else the value of
a maximal live one. On record are the own set and sets that peers sent, one for each response
counted, and the reconciled set depends on nothing but whose they are. -/
theorem read_answers_maximal (r : ℕ) (replicas : List Bytes) (self : Bytes) {own : List Version}
    (hown : Siblings own) (outcome : Bytes → Outcome)
    (hcons : Consistent
      (own ++ answered (arriving (Outcome.versions ∘ outcome) (peersExcept replicas self))))
    {arrivals : List Bytes} (hperm : arrivals.Perm (peersExcept replicas self)) :
    let heard := Outcome.versions ∘ outcome
    let peers := peersExcept replicas self
    let need := min r replicas.length
    let usable := peers.countP fun addr => (heard addr).isSome
    ∃ st, readFrom r replicas self own (arriving heard arrivals) = some st ∧
      ((∃ got, readReply need st = quorumError "read" got need) ↔ 1 + usable < need) ∧
      (need ≤ 1 + usable →
        (readReply need st = .bulkString none ↔ ∀ v, ClockMaximal st.seen v → v.deleted = true) ∧
        (readReply need st ≠ .bulkString none →
          ∃ v, ClockMaximal st.seen v ∧ v.deleted = false ∧
            readReply need st = .bulkString (some v.value))) ∧
      (st.responders[self]? = some own ∧
        (∀ addr, addr ≠ self → ∀ vs, st.responders[addr]? = some vs →
          addr ∈ peers ∧ heard addr = some vs) ∧
        (replicas.Nodup → st.responders.size = st.responses)) ∧
      ∀ arrivals' st', arrivals'.Perm peers →
        readFrom r replicas self own (arriving heard arrivals') = some st' →
        st'.responders.keys = st.responders.keys →
        equal st.merged st'.merged = true ∧
        (Determined (own ++ answered (arriving heard peers)) → st.merged.Perm st'.merged) := by
  intro heard peers need usable
  have hpeers := self_notMem_peersExcept replicas self
  obtain ⟨used, hused, hread, hquorum⟩ := exists_readFrom heard r replicas self own hperm
  have hsub : used ⊆ peers := fun addr hin => hperm.subset (hused.subset hin)
  have hself : self ∉ used := fun hin => hpeers (hsub hin)
  have hseen := seen_subset heard own hself hsub
  refine ⟨_, hread, (quorumError_iff _ _).trans hquorum, ?_, ⟨?_, ?_, ?_⟩, ?_⟩
  · intro hmet
    rw [readReply, if_neg fun hlt => absurd (hquorum.mp hlt) (not_lt_of_ge hmet)]
    exact mergedReply_spec (isMaxima_merged heard hown hself) (hcons.mono hseen)
  · rw [getElem?_responders hself, if_pos rfl]
  · intro addr hne vs hget
    rw [getElem?_responders hself, if_neg hne] at hget
    split_ifs at hget with hin
    exact ⟨hsub hin, hget⟩
  · intro hnodup
    exact size_responders hself
      (hused.sublist.nodup (hperm.nodup_iff.mpr (hnodup.filter _)))
  · intro arrivals' st' hperm' hread' hkeys
    obtain ⟨used', hused', hread'', -⟩ := exists_readFrom heard r replicas self own hperm'
    obtain rfl := Option.some.inj (hread'.symm.trans hread'')
    have hself' : self ∉ used' := fun hin => hpeers (hperm'.subset (hused'.subset hin))
    obtain ⟨hequal, hperm⟩ := equal_merged hown hself hself' hkeys (hcons.mono hseen)
    exact ⟨hequal, fun hdet => hperm fun v hv w hw => hdet v (hseen hv) w (hseen hw)⟩

/-- Of two peers one fails and the other one has nothing for the key. -/
theorem read_answers_maximal_of_failed :
    let own : List Version := [⟨[7], (∅ : Clock).insert [1] 1, false, 0⟩]
    let outcome (addr : Bytes) : Outcome := if addr = [2] then .failed else .answered []
    ∃ st, readFrom 2 [[1], [2], [3]] [1] own
        (arriving (Outcome.versions ∘ outcome) [[2], [3]]) = some st ∧
      (¬ ∃ got, readReply 2 st = quorumError "read" got 2) ∧
      (readReply 2 st = .bulkString none ↔ ∀ v, ClockMaximal st.seen v → v.deleted = true) := by
  intro own outcome
  obtain ⟨st, hread, hquorum, hreply, -⟩ := read_answers_maximal 2 [[1], [2], [3]] [1]
    (by decide : Siblings own) outcome (by decide +kernel)
    (by decide : ([[2], [3]] : List Bytes).Perm (peersExcept [[1], [2], [3]] [1]))
  exact ⟨st, hread, fun herr => absurd (hquorum.mp herr) (by decide +kernel),
    (hreply (by decide +kernel)).1⟩

end Kyria.Coordinator

namespace Kyria.Server

open Kyria.Lib.Cursor Kyria.Store Kyria.Version Kyria.Coordinator Kyria.Protocol

lemma Coordinator.read_eq {σ : Type} (c : Coordinator) (m : MapStore σ) (amb : Ambient)
    (key : Bytes) :
    (c.read m amb key).1 =
      (readFrom c.r (c.router.owners key c.n) c.self
        (siblingsOf ((m.get amb.env.now key).1.getD [])) amb.answers).map
        (readReply (min c.r (c.router.owners key c.n).length)) := rfl

end Kyria.Server
