import Kyria.Version
import Kyria.Binenc
import Kyria.Lib.MapOrder

/-!
The blob a store holds under a key: `Encode` and `Decode` of a sibling set.

`Encode` visits the clock of the `i`-th version in an order of its own choice, so it takes a
`VisitOrder`. Nothing is lost on the way as long as every length fits its length field.
-/

namespace Kyria.Version

open Std (ExtTreeMap)
open Kyria.Lib.Cursor Kyria.Lib.MapOrder Kyria.Vclock Kyria.Binenc

abbrev ClockOrder := VisitOrder (Bytes × UInt64)

/-- One entry of a clock. A node ID too long for its length field is left out, silently. -/
def encodeEntry (e : Bytes × UInt64) : Bytes := written (putString e.1) ++ putUint64 e.2

def encodeClock (o : ClockOrder) (i : ℕ) (clock : Clock) : Bytes :=
  putUint32 (UInt32.ofNat clock.size) ++ (o.visit i clock.toList).flatMap encodeEntry

def encodeVersion (o : ClockOrder) (i : ℕ) (v : Version) : Bytes :=
  putUint32 (UInt32.ofNat v.value.length) ++ (v.value ++ (putBool v.deleted ++
    ((if v.deleted then putUint64 v.deletedAt.toUInt64 else []) ++ encodeClock o i v.clock)))

def encode (o : ClockOrder) (versions : List Version) : Bytes :=
  putUint32 (UInt32.ofNat versions.length) ++
    versions.zipIdx.flatMap fun (v, i) => encodeVersion o i v

def decodeEntry (clock : Clock) : Reader Malformed Clock := do
  let node ← string
  let counter ← uint64
  return clock.insert node counter

def decodeClock : Reader Malformed Clock := do
  let clockN ← uint32
  Reader.loop decodeEntry clockN.toNat ∅

/-- A live version has no stamp on the wire and reads as zero, whatever came before it. -/
def decodeStamp (deleted : Bool) : Reader Malformed UInt64 := if deleted then uint64 else pure 0

def decodeVersion (results : List Version) : Reader Malformed (List Version) := do
  let valueLen ← uint32
  let value ← bytes valueLen.toNat
  let deleted ← bool
  let deletedAt ← decodeStamp deleted
  let clock ← decodeClock
  return results ++ [{ value, clock, deleted, deletedAt := deletedAt.toInt64 }]

def decodeAll : Reader Malformed (List Version) := do
  let count ← uint32
  Reader.loop decodeVersion count.toNat []

def decode (b : Bytes) : Except Malformed (List Version) :=
  if b.length = 0 then .ok [] else (decodeAll b 0).map Prod.fst

/-- The sibling set read where a decode error is dropped: none at all then. -/
def siblingsOf (b : Bytes) : List Version :=
  match decode b with
  | .ok vs => vs
  | .error _ => []

/-! ### The round trip -/

/-- Every length of the version fits its length field, and it is stamped only if deleted. -/
structure Fits (v : Version) : Prop where
  value : v.value.length < 2 ^ 32
  clock : v.clock.size < 2 ^ 32
  ids : ∀ e ∈ v.clock.toList, e.1.length ≤ maxUint16
  stamp : v.deleted = false → v.deletedAt = 0

lemma ids_iff {clock : Clock} : (∀ e ∈ clock.toList, e.1.length ≤ maxUint16) ↔
    ∀ n ∈ clock, n.length ≤ maxUint16 := by
  constructor
  · intro h n hn
    obtain ⟨x, hx⟩ := Option.isSome_iff_exists.mp (ExtTreeMap.isSome_getElem?_iff_mem.mpr hn)
    exact h (n, x) (mem_toList_iff.mpr hx)
  · intro h e he
    refine h e.1 (ExtTreeMap.isSome_getElem?_iff_mem.mp ?_)
    rw [mem_toList_iff.mp (show (e.1, e.2) ∈ clock.toList from he)]
    rfl

structure Encodable (vs : List Version) : Prop where
  count : vs.length < 2 ^ 32
  fits : ∀ v ∈ vs, Fits v

/-- What the codec asks of a version: every length fits its length field. -/
structure Sized (v : Version) : Prop where
  value : v.value.length < 2 ^ 32
  clock : v.clock.size < 2 ^ 32
  ids : ∀ e ∈ v.clock.toList, e.1.length ≤ maxUint16

lemma Fits.sized {v : Version} (h : Fits v) : Sized v := ⟨h.value, h.clock, h.ids⟩

/-- The version that is read back: a stamp is kept for a tombstone only. -/
def asRead (v : Version) : Version := { v with deletedAt := if v.deleted then v.deletedAt else 0 }

lemma Fits.asRead_eq {v : Version} (h : Fits v) : asRead v = v := by
  obtain ⟨value, clock, deleted, deletedAt⟩ := v
  cases deleted with
  | false =>
    have hz : deletedAt = 0 := h.stamp rfl
    rw [hz]
    rfl
  | true => rfl

lemma exact_entry (clock : Clock) (e : Bytes × UInt64) (h : e.1.length ≤ maxUint16) :
    Exact (decodeEntry clock) (clock.insert e.1 e.2) (encodeEntry e) := by
  refine (exact_string h).bind ?_
  rw [← List.append_nil (putUint64 e.2)]
  exact (exact_uint64 e.2).bind (Exact.pure _)

lemma exact_clock (o : ClockOrder) (i : ℕ) {clock : Clock} (hsize : clock.size < 2 ^ 32)
    (hids : ∀ e ∈ clock.toList, e.1.length ≤ maxUint16) :
    Exact decodeClock clock (encodeClock o i clock) := by
  refine (exact_uint32 _).bind ?_
  have hlen : (o.visit i clock.toList).length = clock.size := by
    rw [o.length_visit, ExtTreeMap.length_toList]
  have h := Exact.loop (ε := Malformed) (e := encodeEntry)
    (f := fun (c : Clock) e => c.insert e.1 e.2) (o.visit i clock.toList)
    (fun c e he => exact_entry c e (hids e ((o.mem_visit i _ e).mp he))) ∅
  rw [toNat_ofNat_of_lt hsize]
  rwa [hlen, foldl_insert_of_perm (o.perm i _)] at h

lemma exact_stamp (v : Version) :
    Exact (decodeStamp v.deleted) (asRead v).deletedAt.toUInt64
      (if v.deleted then putUint64 v.deletedAt.toUInt64 else []) := by
  rcases hd : v.deleted with _ | _
  · simp only [asRead, hd]
    exact Exact.pure _
  · simp only [asRead, hd, if_true]
    exact exact_uint64 _

lemma exact_version (o : ClockOrder) (i : ℕ) {v : Version} (h : Sized v) (vs : List Version) :
    Exact (decodeVersion vs) (vs ++ [asRead v]) (encodeVersion o i v) := by
  refine (exact_uint32 _).bind ?_
  rw [toNat_ofNat_of_lt h.value]
  refine (exact_slice v.value).bind ((exact_bool v.deleted).bind ?_)
  refine (exact_stamp v).bind ?_
  rw [← List.append_nil (encodeClock o i v.clock)]
  refine (exact_clock o i h.clock h.ids).bind ?_
  rw [Int64.toInt64_toUInt64]
  exact Exact.pure _

lemma exact_all (o : ClockOrder) {vs : List Version} (hcount : vs.length < 2 ^ 32)
    (h : ∀ v ∈ vs, Sized v) : Exact decodeAll (vs.map asRead) (encode o vs) := by
  refine (exact_uint32 _).bind ?_
  have hloop := Exact.loop (ε := Malformed) (e := fun p => encodeVersion o p.2 p.1)
    (f := fun (s : List Version) (p : Version × ℕ) => s ++ [asRead p.1]) vs.zipIdx
    (fun s p hp => exact_version o p.2 (h p.1 (List.fst_mem_of_mem_zipIdx hp)) s) []
  have hfold : vs.zipIdx.foldl (fun (s : List Version) p => s ++ [asRead p.1]) [] =
      vs.map asRead := by
    have hmap : vs.zipIdx.map (fun p => asRead p.1) = vs.map asRead := by
      rw [← Function.comp_def asRead Prod.fst, ← List.map_map, List.zipIdx_map_fst]
    rw [← List.foldl_map (f := fun p : Version × ℕ => asRead p.1)
      (g := fun (s : List Version) v => s ++ [v]), hmap, foldl_snoc, List.nil_append]
  rw [toNat_ofNat_of_lt hcount]
  rwa [List.length_zipIdx, hfold] at hloop

lemma length_encode_pos (o : ClockOrder) (vs : List Version) : (encode o vs).length ≠ 0 := by
  simp only [encode, putUint32, List.length_append, length_bigEndian]
  omega

/-- **The sibling set is read back as it was written**, whatever order the clocks are visited
in, but for the stamp of a live version; cut short, its encoding is refused. -/
theorem codec_round_trip (o : ClockOrder) {vs : List Version} (hcount : vs.length < 2 ^ 32)
    (hvs : ∀ v ∈ vs, v.value.length < 2 ^ 32 ∧ v.clock.size < 2 ^ 32 ∧
      ∀ n ∈ v.clock, n.length ≤ maxUint16) :
    decode (encode o vs) = .ok (vs.map asRead) ∧
      ∀ cut post, encode o vs = cut ++ post → cut ≠ [] → post ≠ [] →
        decode cut = .error .errMalformed := by
  have hexact := exact_all o hcount fun v hv =>
    ⟨(hvs v hv).1, (hvs v hv).2.1, ids_iff.mpr (hvs v hv).2.2⟩
  constructor
  · rw [decode, if_neg (length_encode_pos o vs)]
    exact hexact.recovers.whole
  · intro cut post hcut hne hpost
    obtain ⟨err, herr⟩ := hexact.whole_truncated hcut hpost
    rw [decode, if_neg (by simpa using hne), herr]

/-- A live version behind a tombstone, both stamped. -/
def stampedPair : List Version :=
  [{ value := [], clock := (∅ : Clock).insert [97] 1, deleted := true, deletedAt := -3 },
   { value := [1], clock := ((∅ : Clock).insert [97] 2).insert [98] 1, deletedAt := 7 }]

theorem codec_round_trip_stamped :
    decode (encode VisitOrder.reversed stampedPair) = .ok (stampedPair.map asRead) ∧
      decode ((encode VisitOrder.reversed stampedPair).take 9) = .error .errMalformed := by
  have hcount : stampedPair.length < 2 ^ 32 := by decide
  obtain ⟨hread, hcut⟩ := codec_round_trip VisitOrder.reversed hcount (by
    intro v hv
    simp only [stampedPair, List.mem_cons, List.not_mem_nil, or_false] at hv
    rcases hv with rfl | rfl <;>
      exact ⟨by decide, by decide +kernel, fun n hn => by
        simp only [ExtTreeMap.mem_insert, Std.LawfulEqOrd.compare_eq_iff_eq,
          ExtTreeMap.not_mem_empty, or_false] at hn
        rcases hn with rfl | rfl <;> decide⟩)
  exact ⟨hread, hcut _ ((encode VisitOrder.reversed stampedPair).drop 9)
    (List.take_append_drop 9 _).symm (by decide +kernel) (by decide +kernel)⟩

lemma decode_encode (o : ClockOrder) {vs : List Version} (h : Encodable vs) :
    decode (encode o vs) = .ok vs := by
  have hmap : vs.map asRead = vs :=
    (List.map_congr_left fun v hv => (h.fits v hv).asRead_eq).trans (List.map_id vs)
  have hexact := exact_all o h.count fun v hv => (h.fits v hv).sized
  rw [decode, if_neg (length_encode_pos o vs)]
  rw [hmap] at hexact
  exact hexact.recovers.whole

lemma siblingsOf_encode (o : ClockOrder) {vs : List Version} (h : Encodable vs) :
    siblingsOf (encode o vs) = vs := by
  unfold siblingsOf
  rw [decode_encode o h]

/-! ### What is decoded can be encoded -/

lemma ensures_clock :
    Ensures decodeClock fun clock =>
      clock.size < 2 ^ 32 ∧ ∀ e ∈ clock.toList, e.1.length ≤ maxUint16 := by
  refine (Ensures.trivial _).bind fun n _ => ?_
  have hloop : Ensures (Reader.loop decodeEntry n.toNat ∅) fun clock =>
      clock.size ≤ 0 + n.toNat ∧ ∀ e ∈ clock.toList, e.1.length ≤ maxUint16 := by
    refine Ensures.loop (P := fun k (clock : Clock) =>
      clock.size ≤ k ∧ ∀ e ∈ clock.toList, e.1.length ≤ maxUint16) ?_ n.toNat 0 ∅ (by simp)
    rintro k clock ⟨hsize, hids⟩
    refine ensures_string.bind fun node hnode => (Ensures.trivial _).bind fun counter _ => ?_
    refine Ensures.pure ⟨ExtTreeMap.size_insert_le.trans (by omega), fun e he => ?_⟩
    rw [mem_toList_iff (n := e.1) (x := e.2), ExtTreeMap.getElem?_insert] at he
    split_ifs at he with hc
    · rw [Std.LawfulEqOrd.compare_eq_iff_eq] at hc
      exact hc ▸ hnode
    · exact hids e (mem_toList_iff.mpr he)
  intro data off clock off' h
  obtain ⟨hsize, hids⟩ := hloop data off clock off' h
  have := n.toNat_lt
  exact ⟨by omega, hids⟩

lemma ensures_all : Ensures decodeAll fun vs => ∀ v ∈ vs, Fits v := by
  refine (Ensures.trivial _).bind fun n _ => ?_
  refine Ensures.loop (P := fun _ vs => ∀ v ∈ vs, Fits v) (fun _ vs hvs => ?_) _ 0 _ (by simp)
  refine (Ensures.trivial _).bind fun len _ => (ensures_slice _).bind fun value hvalue => ?_
  refine (Ensures.trivial _).bind fun deleted _ => ?_
  have hstamp : Ensures (decodeStamp deleted) fun stamp => deleted = false → stamp = 0 := by
    rcases deleted with _ | _
    · exact Ensures.pure fun _ => rfl
    · exact fun _ _ _ _ _ h => absurd h (by simp)
  refine hstamp.bind fun stamp hat => ensures_clock.bind fun clock hclock =>
    Ensures.pure fun v hv => ?_
  rcases List.mem_append.mp hv with hv | hv
  · exact hvs v hv
  · rw [List.mem_singleton.mp hv]
    have := len.toNat_lt
    exact ⟨by simp only; omega, hclock.1, hclock.2, fun hd => by simp [hat hd]⟩

lemma fits_of_decode {b : Bytes} {vs : List Version} (h : decode b = .ok vs) :
    ∀ v ∈ vs, Fits v := by
  unfold decode at h
  split_ifs at h with hb
  · simp only [Except.ok.injEq] at h
    simp [← h]
  · exact ensures_all.whole h

lemma fits_of_mem_siblingsOf {b : Bytes} {v : Version} (h : v ∈ siblingsOf b) : Fits v := by
  unfold siblingsOf at h
  split at h
  · next vs hvs => exact fits_of_decode hvs v h
  · simp at h

lemma Fits.encodable {v : Version} (h : Fits v) : Encodable [v] where
  count := by simp
  fits := by simpa using h

/-! ### Lengths -/

lemma size_le_length_encodeVersion (o : ClockOrder) (i : ℕ) (v : Version) :
    v.clock.size + 1 ≤ (encodeVersion o i v).length := by
  have hent : v.clock.size ≤ ((o.visit i v.clock.toList).flatMap encodeEntry).length := by
    have hone : ∀ e ∈ o.visit i v.clock.toList, 1 ≤ (encodeEntry e).length := by
      intro e _
      simp only [encodeEntry, putUint64, List.length_append, length_bigEndian]
      omega
    have h := sum_le_length_flatMap hone
    rwa [List.map_const', List.sum_replicate, smul_eq_mul, mul_one, o.length_visit,
      ExtTreeMap.length_toList] at h
  simp only [encodeVersion, encodeClock, putUint32, putBool, List.length_append, length_bigEndian,
    List.length_singleton]
  omega

lemma sum_size_le_length_encode (o : ClockOrder) (vs : List Version) :
    (vs.map fun v => v.clock.size + 1).sum + 4 ≤ (encode o vs).length := by
  have h := sum_le_length_flatMap (l := vs.zipIdx) (f := fun p => encodeVersion o p.2 p.1)
    (g := fun p => p.1.clock.size + 1) fun p _ => size_le_length_encodeVersion o p.2 p.1
  have hmap : vs.zipIdx.map (fun p => p.1.clock.size + 1) = vs.map fun v => v.clock.size + 1 := by
    rw [← Function.comp_def (fun v : Version => v.clock.size + 1) Prod.fst, ← List.map_map,
      List.zipIdx_map_fst]
  rw [hmap] at h
  simp only [encode, putUint32, List.length_append, length_bigEndian]
  omega

lemma encodable_of_length {o : ClockOrder} {vs : List Version} (hc : ∀ v ∈ vs, Fits v)
    (hlen : (encode o vs).length < 2 ^ 32) : Encodable vs := by
  refine ⟨?_, hc⟩
  have h := sum_size_le_length_encode o vs
  have hcount : vs.length ≤ (vs.map fun v => v.clock.size + 1).sum := by simp
  omega

/-! ### What depends on the order of clock entries -/

lemma length_encodeVersion (o o' : ClockOrder) (i : ℕ) (v : Version) :
    (encodeVersion o i v).length = (encodeVersion o' i v).length := by
  have h := (((o.perm i v.clock.toList).trans (o'.perm i v.clock.toList).symm).flatMap_right
    encodeEntry).length_eq
  simp only [encodeVersion, encodeClock, List.length_append, h]

lemma encode_eq_of_size_le {vs : List Version} (h : ∀ v ∈ vs, v.clock.size ≤ 1)
    (o o' : ClockOrder) : encode o vs = encode o' vs := by
  unfold encode
  congr 1
  refine List.flatMap_congr fun p hp => ?_
  have hle : p.1.clock.toList.length ≤ 1 := by
    rw [ExtTreeMap.length_toList]
    exact h p.1 (List.fst_mem_of_mem_zipIdx hp)
  simp only [encodeVersion, encodeClock, o.visit_eq_self _ hle, o'.visit_eq_self _ hle]

lemma encodeClock_reversed_ne {clock : Clock} (hids : ∀ e ∈ clock.toList, e.1.length ≤ maxUint16)
    (h : 2 ≤ clock.size) (i j : ℕ) :
    encodeClock default i clock ≠ encodeClock VisitOrder.reversed j clock := by
  intro heq
  have hflat : clock.toList.flatMap encodeEntry = clock.toList.reverse.flatMap encodeEntry :=
    List.append_cancel_left heq
  have hdist := clock.distinct_keys_toList
  rw [← ExtTreeMap.length_toList] at h
  obtain ⟨x, l, hl⟩ := List.exists_cons_of_length_pos (show 0 < clock.toList.length by omega)
  obtain ⟨l', y, hl'⟩ := List.eq_nil_or_concat l |>.resolve_left (by
    rintro rfl
    simp [hl] at h)
  rw [hl'] at hl
  rw [hl, List.pairwise_cons] at hdist
  have hx : x.1.length ≤ maxUint16 := hids x (by simp [hl])
  have hy : y.1.length ≤ maxUint16 := hids y (by simp [hl])
  have heq : (∅ : Clock).insert x.1 x.2 = (∅ : Clock).insert y.1 y.2 := by
    refine (exact_entry ∅ x hx).recovers.unique (exact_entry ∅ y hy).recovers
      (s := (l'.concat y).flatMap encodeEntry) (t := (x :: l').reverse.flatMap encodeEntry) ?_
    rw [← List.flatMap_cons, ← List.flatMap_cons, ← hl, hflat, hl]
    simp
  refine hdist.1 y (by simp) ?_
  have hmem : x.1 ∈ (∅ : Clock).insert y.1 y.2 := heq ▸ ExtTreeMap.mem_insert_self
  have hid : y.1 = x.1 := by simpa using hmem
  rw [hid]
  exact Std.ReflOrd.compare_self

/-- **A clock of two entries or more has several encodings.** -/
lemma encode_reversed_ne {vs : List Version} (hfit : ∀ v ∈ vs, Fits v) {v : Version} (hv : v ∈ vs)
    (h : 2 ≤ v.clock.size) : encode default vs ≠ encode VisitOrder.reversed vs := by
  intro heq
  obtain ⟨⟨v, i⟩, hi, rfl⟩ : ∃ p ∈ vs.zipIdx, p.1 = v := by
    rw [← List.mem_map, List.zipIdx_map_fst]
    exact hv
  have hpiece := eq_of_flatMap_eq (fun p _ => length_encodeVersion _ _ p.2 p.1)
    (List.append_cancel_left heq) (v, i) hi
  refine encodeClock_reversed_ne (hfit v hv).ids h i i ?_
  simpa only [encodeVersion, List.append_cancel_left_eq] using hpiece

end Kyria.Version
