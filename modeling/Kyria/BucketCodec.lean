import Kyria.Binenc
import Kyria.Store

/-!
The codecs of an `RBUCKET` exchange (`internal/server/antientropy.go`): the request carries a
set of bucket numbers, the reply the entries in them.
-/

namespace Kyria.BucketCodec

open Std (ExtTreeMap LawfulEqOrd)
open Kyria.Lib.Cursor Kyria.Lib.MapOrder Kyria.Binenc

def encodeBucket (b : ℤ) : Bytes := putUint32 (UInt32.ofNat (b % 2 ^ 32).toNat)

def encodeBuckets (buckets : List ℤ) : Bytes :=
  putUint32 (UInt32.ofNat buckets.length) ++ buckets.flatMap encodeBucket

def decodeBucket (buckets : List ℤ) : Reader Malformed (List ℤ) := do
  let bucket ← uint32
  return buckets ++ [(bucket.toNat : ℤ)]

def decodeBucketSet : Reader Malformed (List ℤ) := do
  let bucketSize ← uint32
  Reader.loop decodeBucket bucketSize.toNat []

def decodeBuckets (b : Bytes) : Except Malformed (List ℤ) := (decodeBucketSet b 0).map Prod.fst

abbrev Entries := ExtTreeMap Bytes Bytes

/-- A key too long for its length field is left out, silently. -/
def encodeEntry (e : Bytes × Bytes) : Bytes :=
  written (putString e.1) ++ (putUint32 (UInt32.ofNat e.2.length) ++ e.2)

/-- The entries come in the order the map is visited in. -/
def encodeEntries (o : VisitOrder (Bytes × Bytes)) (entries : Entries) : Bytes :=
  putUint32 (UInt32.ofNat entries.size) ++ (o.visit 0 entries.toList).flatMap encodeEntry

def decodeEntry (entries : Entries) : Reader Malformed Entries := do
  let key ← string
  let blobLen ← uint32
  let blob ← bytes blobLen.toNat
  return entries.insert key blob

def decodeEntrySet : Reader Malformed Entries := do
  let entriesSize ← uint32
  Reader.loop decodeEntry entriesSize.toNat ∅

def decodeEntries (b : Bytes) : Except Malformed Entries := (decodeEntrySet b 0).map Prod.fst

/-! ### The round trips -/

lemma recovers_bucket {b : ℤ} (h : 0 ≤ b ∧ b < 2 ^ 32) (buckets : List ℤ) :
    Recovers (decodeBucket buckets) (buckets ++ [b]) (encodeBucket b) := by
  unfold encodeBucket
  rw [← List.append_nil (putUint32 _)]
  refine (recovers_uint32 _).bind ?_
  have hb : (((b % 2 ^ 32).toNat : ℕ) : ℤ) = b := by omega
  rw [toNat_ofNat_of_lt (by omega), hb]
  exact Recovers.pure _

lemma decodeBuckets_encodeBuckets {buckets : List ℤ} (hlen : buckets.length < 2 ^ 32)
    (h : ∀ b ∈ buckets, 0 ≤ b ∧ b < 2 ^ 32) :
    decodeBuckets (encodeBuckets buckets) = .ok buckets := by
  have hrec : Recovers decodeBucketSet buckets (encodeBuckets buckets) := by
    refine (recovers_uint32 _).bind ?_
    rw [toNat_ofNat_of_lt hlen]
    exact Recovers.collect buckets fun s b hb => recovers_bucket (h b hb) s
  exact hrec.whole

lemma exact_entry {e : Bytes × Bytes} (hkey : e.1.length ≤ maxUint16)
    (hblob : e.2.length < 2 ^ 32) (entries : Entries) :
    Exact (decodeEntry entries) (entries.insert e.1 e.2) (encodeEntry e) := by
  refine (exact_string hkey).bind ((exact_uint32 _).bind ?_)
  rw [toNat_ofNat_of_lt hblob]
  have := (exact_slice e.2).bind
    (f := fun blob => Pure.pure (entries.insert e.1 blob)) (Exact.pure _)
  rwa [List.append_nil] at this

lemma exact_entrySet (o : VisitOrder (Bytes × Bytes)) {entries : Entries}
    (hsize : entries.size < 2 ^ 32)
    (h : ∀ e ∈ entries.toList, e.1.length ≤ maxUint16 ∧ e.2.length < 2 ^ 32) :
    Exact decodeEntrySet entries (encodeEntries o entries) := by
  have hlen : (o.visit 0 entries.toList).length = entries.size := by
    rw [o.length_visit, ExtTreeMap.length_toList]
  refine (exact_uint32 _).bind ?_
  have hloop := Exact.loop (ε := Malformed) (e := encodeEntry)
    (f := fun (m : Entries) e => m.insert e.1 e.2) (o.visit 0 entries.toList)
    (fun m e he => by
      obtain ⟨hk, hb⟩ := h e ((o.mem_visit 0 _ e).mp he)
      exact exact_entry hk hb m) ∅
  rw [toNat_ofNat_of_lt hsize]
  rwa [hlen, foldl_insert_of_perm (o.perm 0 _)] at hloop

lemma decodeEntries_encodeEntries (o : VisitOrder (Bytes × Bytes)) {entries : Entries}
    (hsize : entries.size < 2 ^ 32)
    (h : ∀ e ∈ entries.toList, e.1.length ≤ maxUint16 ∧ e.2.length < 2 ^ 32) :
    decodeEntries (encodeEntries o entries) = .ok entries :=
  (exact_entrySet o hsize h).recovers.whole

lemma ensures_entrySet :
    Ensures decodeEntrySet fun entries => ∀ key ∈ entries, key.length ≤ maxUint16 := by
  refine (Ensures.trivial _).bind fun n _ => ?_
  refine Ensures.loop (P := fun _ (entries : Entries) => ∀ key ∈ entries, key.length ≤ maxUint16)
    (fun _ entries hold => ?_) _ 0 _ (by simp)
  refine ensures_string.bind fun key hkey => ?_
  refine (Ensures.trivial _).bind fun blobLen _ => (Ensures.trivial _).bind fun blob _ => ?_
  refine Ensures.pure fun k hk => ?_
  rcases ExtTreeMap.mem_insert.mp hk with heq | hk
  · rwa [← LawfulEqOrd.compare_eq_iff_eq.mp heq]
  · exact hold k hk

/-- The entries come back, and from a part of their encoding nothing does. -/
structure RoundTrips (o : VisitOrder (Bytes × Bytes)) (entries : Entries) : Prop where
  whole : decodeEntries (encodeEntries o entries) = .ok entries
  cut : ∀ part rest, encodeEntries o entries = part ++ rest → rest ≠ [] →
    decodeEntries part = .error .errMalformed

/-- **An exchange loses nothing exactly if** no key is too long for its length field. -/
theorem entries_round_trip_iff (o : VisitOrder (Bytes × Bytes)) {entries : Entries}
    (hsize : entries.size < 2 ^ 32) (hblob : ∀ e ∈ entries.toList, e.2.length < 2 ^ 32) :
    RoundTrips o entries ↔ ∀ e ∈ entries.toList, e.1.length ≤ maxUint16 := by
  constructor
  · rintro ⟨hwhole, -⟩ e he
    have hkey := ExtTreeMap.mem_toList_iff_getElem?_eq_some.mp he
    exact ensures_entrySet.whole hwhole e.1 (ExtTreeMap.getElem?_eq_some_iff.mp hkey).1
  · intro hkeys
    have hexact := exact_entrySet o hsize fun e he => ⟨hkeys e he, hblob e he⟩
    refine ⟨hexact.recovers.whole, fun part rest heq hne => ?_⟩
    obtain ⟨err, herr⟩ := hexact.whole_truncated heq hne
    rw [decodeEntries, herr]

theorem entries_round_trip_of_two :
    let entries : Entries := (∅ : Entries).insert [107] [1, 2] |>.insert [108] []
    (∀ e ∈ entries.toList, e.2.length < 2 ^ 32) ∧
      (RoundTrips .reversed entries ↔ ∀ e ∈ entries.toList, e.1.length ≤ maxUint16) := by
  intro entries
  have hblob : ∀ e ∈ entries.toList, e.2.length < 2 ^ 32 := by decide
  exact ⟨hblob, entries_round_trip_iff .reversed (by decide) hblob⟩

lemma encodeEntries_of_long (o : VisitOrder (Bytes × Bytes)) {key : Bytes}
    (h : key.length > maxUint16) :
    encodeEntries o ((∅ : Entries).insert key []) = putUint32 1 ++ putUint32 0 := by
  have hsize : ((∅ : Entries).insert key []).size = 1 := by simp [ExtTreeMap.size_insert]
  obtain ⟨e, he⟩ := List.length_eq_one_iff.mp (ExtTreeMap.length_toList.trans hsize)
  have hmem : (key, []) ∈ ((∅ : Entries).insert key []).toList :=
    ExtTreeMap.mem_toList_iff_getElem?_eq_some.mpr ExtTreeMap.getElem?_insert_self
  rw [he, List.mem_singleton] at hmem
  rw [encodeEntries, hsize, he, o.visit_eq_self 0 le_rfl, ← hmem, List.flatMap_singleton,
    encodeEntry, putString, if_pos h]
  rfl

/-- A key of `2 ^ 16` bytes. -/
def longKey : Bytes := List.replicate 65536 97

lemma length_longKey : longKey.length = 65536 := List.length_replicate

/-- A store that is configured for such keys takes one, and its entries do not come back. -/
theorem long_key_is_lost :
    ({ maxKeySize := 65536, state := () } : Store.MapStore Unit).Accepts longKey [] ∧
      ∀ o, decodeEntries (encodeEntries o ((∅ : Entries).insert longKey [])) =
        .error .errMalformed := by
  have hlen := length_longKey
  refine ⟨⟨by omega, hlen.le, by simp⟩, fun o => ?_⟩
  rw [encodeEntries_of_long o (by unfold maxUint16; omega)]
  decide

lemma sizes_of_length {o : VisitOrder (Bytes × Bytes)} {entries : Entries}
    (h : (encodeEntries o entries).length < 2 ^ 32) :
    entries.size < 2 ^ 32 ∧ ∀ e ∈ entries.toList, e.2.length < 2 ^ 32 := by
  have hone : ∀ e ∈ o.visit 0 entries.toList, e.2.length + 1 ≤ (encodeEntry e).length := by
    intro e _
    simp only [encodeEntry, putUint32, List.length_append, length_bigEndian]
    omega
  have hsum := sum_le_length_flatMap hone
  simp only [encodeEntries, putUint32, List.length_append, length_bigEndian] at h
  constructor
  · have hcount : (o.visit 0 entries.toList).length ≤
        ((o.visit 0 entries.toList).map fun e => e.2.length + 1).sum := by simp
    rw [o.length_visit, ExtTreeMap.length_toList] at hcount
    omega
  · intro e he
    have := List.single_le_sum (fun _ _ => Nat.zero_le _) _
      (List.mem_map_of_mem (f := fun e : Bytes × Bytes => e.2.length + 1)
        ((o.mem_visit 0 _ e).mpr he))
    omega

lemma length_encodeBuckets (buckets : List ℤ) :
    (encodeBuckets buckets).length = 4 + 4 * buckets.length := by
  have hflat : (buckets.flatMap encodeBucket).length = 4 * buckets.length := by
    induction buckets with
    | nil => rfl
    | cons b buckets ih =>
      simp only [List.flatMap_cons, List.length_append, ih, encodeBucket, putUint32,
        length_bigEndian, List.length_cons]
      omega
  simp only [encodeBuckets, putUint32, List.length_append, length_bigEndian, hflat]

lemma encodeEntries_of_size_le {entries : Entries} (h : entries.size ≤ 1)
    (o : VisitOrder (Bytes × Bytes)) : encodeEntries o entries = encodeEntries default entries := by
  rw [← ExtTreeMap.length_toList] at h
  rw [encodeEntries, encodeEntries, o.visit_eq_self 0 h]
  rfl

end Kyria.BucketCodec
