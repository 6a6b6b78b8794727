import Kyria.Store
import Kyria.VersionCodec
import Kyria.Protocol

/-!
The sibling set a replica stores under a key.

Every replicated write ends in one atomic read-modify-write of the stored blob: decode it,
dropping a decode error, change the sibling set, encode it again. `write` and `delete` of
the coordinator mint a version on top of the set; `RSET`, read-repair and anti-entropy fold
versions minted elsewhere into it.
-/

namespace Kyria.Replica

open Std (ExtTreeMap)
open Kyria.Lib.Cursor Kyria.Lib.Maxima Kyria.Lib.Causal
open Kyria.Vclock Kyria.Version Kyria.Binenc Kyria.Store Kyria.Store.MapStore Kyria.Protocol

/-- What one update meets: the time it reads, the order in which it samples entries for an
eviction, and the order in which `Encode` visits clocks. -/
structure Env where
  now : ℕ
  entries : EntryOrder
  clocks : ClockOrder

instance : Inhabited Env := ⟨⟨0, default, default⟩⟩

variable {σ : Type}

def revise (m : MapStore σ) (env : Env) (key : Bytes) (f : List Version → List Version) :
    Except StoreError Unit × MapStore σ :=
  m.updateReplica env.entries env.now key fun old => encode env.clocks (f (siblingsOf old))

def foldIn (m : MapStore σ) (env : Env) (key : Bytes) (incoming : List Version) :
    Except StoreError Unit × MapStore σ :=
  revise m env key fun existing => incoming.foldl reconcile existing

/-- `Handler.rset`: a replicated write, one encoded version for a key. -/
def rset (m : MapStore σ) (env : Env) (key blob : Bytes) : Value × MapStore σ :=
  match decode blob with
  | .ok [incoming] =>
    match foldIn m env key [incoming] with
    | (.ok _, m') => (.simpleString (ascii "OK"), m')
    | (.error err, m') => (.error (ascii ("ERR " ++ err.text)), m')
  | _ => (.error (ascii "ERR malformed version"), m)

def newClock (self : Bytes) (existing : List Version) : Clock :=
  Clock.increment (frontier existing) self

/-- The local half of `write` and `delete`: the set found and the version minted on it. -/
def mint (m : MapStore σ) (env : Env) (self key : Bytes) (mk : Clock → Version) :
    Except StoreError (List Version × Version) × MapStore σ :=
  let existing := siblingsOf ((m.get env.now key).1.getD [])
  let (err, m') := revise m env key fun existing => reconcile existing (mk (newClock self existing))
  (err.map fun _ => (existing, mk (newClock self existing)), m')

/-- The sibling set stored under a key. -/
def siblings (m : MapStore σ) (key : Bytes) : List Version := siblingsOf (m.blob key)

/-! ### Stores that hold an encoded sibling set under the key -/

/-- The limit on values keeps every length of a stored blob within the codec's 32 bits. -/
structure Intact (m : MapStore σ) (key : Bytes) : Prop where
  permanent : m.Permanent key
  limit : m.maxValueSize < 2 ^ 32
  coded : m.blob key = [] ∨ ∃ o vs, m.blob key = encode o vs ∧ Encodable vs ∧
    (encode o vs).length < 2 ^ 32

@[simp] lemma siblingsOf_nil : siblingsOf [] = [] := rfl

lemma siblings_of_blob_eq_nil {m : MapStore σ} {key : Bytes} (h : m.blob key = []) :
    siblings m key = [] := by
  rw [siblings, h, siblingsOf_nil]

variable {m m' : MapStore σ} {key : Bytes}

lemma fits_of_mem_siblings {v : Version} (h : v ∈ siblings m key) : Fits v :=
  fits_of_mem_siblingsOf h

lemma siblings_of_keeps (h : Keeps m m' key) : siblings m' key = siblings m key := by
  rw [siblings, siblings, h.blob]

lemma Intact.of_keeps (h : Intact m key) (hk : Keeps m m' key) (hl : SameLimits m m') :
    Intact m' key where
  permanent := hk.permanent h.permanent
  limit := hl.maxValueSize ▸ h.limit
  coded := hk.blob ▸ h.coded

lemma blob_of_none (hn : m.data[key]? = none) : m.blob key = [] := by simp [MapStore.blob, hn]

lemma Intact.of_none (hlim : m.maxValueSize < 2 ^ 32) (hn : m.data[key]? = none) :
    Intact m key where
  permanent := by simp [Permanent, hn]
  limit := hlim
  coded := .inl (blob_of_none hn)

lemma Intact.sum_size_lt (h : Intact m key) :
    ((siblings m key).map fun v => v.clock.size).sum + 4 ≤ 2 ^ 32 := by
  rcases h.coded with h0 | ⟨o, vs, hb, henc, hlen⟩
  · simp [siblings_of_blob_eq_nil h0]
  · have hs : siblings m key = vs := by rw [siblings, hb, siblingsOf_encode o henc]
    have hle : (vs.map fun v => v.clock.size).sum ≤ (vs.map fun v => v.clock.size + 1).sum :=
      List.sum_le_sum fun v _ => Nat.le_succ _
    have := sum_size_le_length_encode o vs
    rw [hs]
    omega

/-- **One update of a sibling set**: it is stored as it comes out, or refused for its size. -/
theorem revise_spec (h : Intact m key) (env : Env) {f : List Version → List Version}
    (hf : ∀ v ∈ f (siblings m key), Fits v) :
    Intact (revise m env key f).2 key ∧
      (((revise m env key f).1 = .ok () ∧
          siblings (revise m env key f).2 key = f (siblings m key)) ∨
       (∃ err, (revise m env key f).1 = .error err ∧
          siblings (revise m env key f).2 key = siblings m key)) := by
  have hlim := updateReplica_sameLimits m env.entries env.now key
    fun old => encode env.clocks (f (siblingsOf old))
  have hperm := updateReplica_permanent env.entries env.now
    (fun old => encode env.clocks (f (siblingsOf old))) h.permanent
  have hupd := updateReplica_updated env.entries env.now
    (fun old => encode env.clocks (f (siblingsOf old))) h.permanent
  unfold revise
  generalize m.updateReplica env.entries env.now key
    (fun old => encode env.clocks (f (siblingsOf old))) = r at *
  obtain ⟨res, m'⟩ := r
  cases hupd with
  | done hacc hblob =>
    have hlen : (encode env.clocks (f (siblings m key))).length < 2 ^ 32 :=
      lt_of_le_of_lt hacc.2.2 h.limit
    have henc : Encodable (f (siblings m key)) := encodable_of_length hf hlen
    refine ⟨⟨hperm, hlim.maxValueSize ▸ h.limit, .inr ⟨_, _, hblob, henc, hlen⟩⟩, .inl ⟨rfl, ?_⟩⟩
    rw [siblings, hblob]
    exact siblingsOf_encode env.clocks henc
  | refused err _ hk => exact ⟨h.of_keeps hk hlim, .inr ⟨err, rfl, siblings_of_keeps hk⟩⟩

lemma updateReplica_spec_of_ne (h : Intact m key) (o : EntryOrder) (now : ℕ) {k : Bytes}
    (hk : key ≠ k) (fn : Bytes → Bytes) :
    Intact (m.updateReplica o now k fn).2 key ∧
      (Keeps m (m.updateReplica o now k fn).2 key ∨
        (m.updateReplica o now k fn).2.data[key]? = none) := by
  have hlim := updateReplica_sameLimits m o now k fn
  have hoth := updateReplica_others m o now k fn hk
  refine ⟨?_, hoth⟩
  rcases hoth with hkeep | hnone
  · exact h.of_keeps hkeep hlim
  · exact .of_none (hlim.maxValueSize ▸ h.limit) hnone

lemma foldIn_spec (h : Intact m key) (env : Env) {vs : List Version} (hvs : ∀ v ∈ vs, Fits v) :
    Intact (foldIn m env key vs).2 key ∧
      (((foldIn m env key vs).1 = .ok () ∧
          siblings (foldIn m env key vs).2 key = vs.foldl reconcile (siblings m key)) ∨
       (∃ err, (foldIn m env key vs).1 = .error err ∧
          siblings (foldIn m env key vs).2 key = siblings m key)) := by
  refine revise_spec h env fun v hv => ?_
  rw [reconcile_eq] at hv
  rcases mem_of_mem_foldl hv with hv | hv
  · exact fits_of_mem_siblings hv
  · exact hvs v hv

lemma rset_spec (h : Intact m key) (env : Env) (blob : Bytes) :
    Intact (rset m env key blob).2 key ∧
      (((rset m env key blob).1 = .simpleString (ascii "OK") ∧
          siblings (rset m env key blob).2 key =
            (siblingsOf blob).foldl reconcile (siblings m key)) ∨
       ((rset m env key blob).1 ≠ .simpleString (ascii "OK") ∧
          siblings (rset m env key blob).2 key = siblings m key)) := by
  rcases hd : decode blob with e | _ | ⟨v, _ | ⟨w, ws⟩⟩
  case ok.cons.nil =>
    have hs : siblingsOf blob = [v] := by simp [siblingsOf, hd]
    have hv : ∀ x ∈ [v], Fits x := fits_of_decode hd
    have hfold := foldIn_spec h env hv
    simp only [rset, hd, hs]
    generalize foldIn m env key [v] = r at *
    obtain ⟨_ | _, m'⟩ := r
    · obtain ⟨hi, ⟨hok, -⟩ | ⟨err, -, hsib⟩⟩ := hfold
      · simp at hok
      · exact ⟨hi, .inr ⟨by simp, hsib⟩⟩
    · obtain ⟨hi, ⟨-, hsib⟩ | ⟨err, herr, -⟩⟩ := hfold
      · exact ⟨hi, .inl ⟨rfl, hsib⟩⟩
      · simp at herr
  all_goals
    simp only [rset, hd]
    exact ⟨h, .inr ⟨by simp, trivial⟩⟩

/-- The version a node would mint on what it stores now. -/
def minted (m : MapStore σ) (self key : Bytes) (mk : Clock → Version) : Version :=
  mk (newClock self (siblings m key))

lemma mint_spec (h : Intact m key) (env : Env) {self : Bytes} {mk : Clock → Version}
    (hfit : Fits (minted m self key mk)) :
    Intact (mint m env self key mk).2 key ∧
      (((mint m env self key mk).1 = .ok (siblings m key, minted m self key mk) ∧
          siblings (mint m env self key mk).2 key =
            reconcile (siblings m key) (minted m self key mk)) ∨
       (∃ err, (mint m env self key mk).1 = .error err ∧
          siblings (mint m env self key mk).2 key = siblings m key)) := by
  have hold : siblingsOf ((m.get env.now key).1.getD []) = siblings m key := by
    rw [getD_get_of_permanent h.permanent, siblings]
  have hrev := revise_spec h env (f := fun existing =>
    reconcile existing (mk (newClock self existing))) fun v hv => by
      rw [reconcile_eq] at hv
      rcases mem_absorb.mp hv with ⟨hv, -⟩ | ⟨rfl, -⟩
      · exact fits_of_mem_siblings hv
      · exact hfit
  unfold mint
  simp only [hold]
  generalize revise m env key (fun existing => reconcile existing (mk (newClock self existing)))
    = r at *
  obtain ⟨res, m'⟩ := r
  refine ⟨hrev.1, hrev.2.imp ?_ ?_⟩
  · rintro ⟨hres, hs⟩
    exact ⟨by simp only at hres; rw [hres]; rfl, hs⟩
  · rintro ⟨err, hres, hs⟩
    exact ⟨err, by simp only at hres; rw [hres]; rfl, hs⟩

lemma fits_newClock (h : Intact m key) {self : Bytes} (hself : self.length ≤ maxUint16)
    {mk : Clock → Version} (hmk : ∀ c, (mk c).clock = c) (hval : ∀ c, (mk c).value.length < 2 ^ 32)
    (hstamp : ∀ c, (mk c).deleted = false → (mk c).deletedAt = 0) :
    Fits (minted m self key mk) where
  value := hval _
  clock := by
    rw [minted, hmk, newClock, Clock.increment]
    have h1 := h.sum_size_lt
    have h2 := size_frontier_le (siblings m key)
    have h3 := ExtTreeMap.size_insert_le (t := frontier (siblings m key)) (k := self)
      (v := (frontier (siblings m key)).getD self 0 + 1)
    omega
  ids := by
    rw [minted, hmk, ids_iff]
    intro n hn
    rcases ExtTreeMap.mem_insert.mp hn with he | hn
    · rw [Std.LawfulEqOrd.compare_eq_iff_eq] at he
      exact he ▸ hself
    · obtain ⟨v, hv, hnv⟩ := mem_of_mem_frontier hn
      exact ids_iff.mp (fits_of_mem_siblings hv).ids n hnv
  stamp := hstamp _

end Kyria.Replica
