import Kyria.Standalone
import Kyria.Store.Recency

/-!
The time-to-live of a `SET` on a standalone node (`Handler.set`, `MapStore.SetWithTTL`).

The number is multiplied by its unit in 64 bits before its sign is checked, so that a product
out of range may come out as some other positive time. A store at its cap may in addition turn
the new entry away, which `SET` answers as if it had been stored.
-/

namespace Kyria.Store.MapStore

open Std (ExtTreeMap)
open Kyria.Lib.Cursor Kyria.Lib.MapOrder

variable {σ : Type} {m : MapStore σ} {key value : Bytes}

/-! ### Whether a new entry stays -/

/-- The incumbents that a newcomer `(key, e)` is measured against: the first five of them in the
order in which an iteration over the map visits them. -/
def rivals (m : MapStore σ) (o : EntryOrder) (key : Bytes) (e : Entry) : List (Bytes × Entry) :=
  ((o.visit 0 (m.data.insert key e).toList).filter fun a => a.1 ≠ key).take evictionSampleSize

/-- The store keeps an entry it takes in: nothing has to make way for it, or the policy prefers
it to the weakest of its rivals. -/
def Admits (m : MapStore σ) (o : EntryOrder) (key value : Bytes) (expiresAt : ℕ) : Prop :=
  m.Room key ∨ ∀ p ∈ m.policy,
    let (state, hint) := p.recordInsert m.state key 0
    let rivals := m.rivals o key ⟨value, expiresAt, hint⟩
    ∀ a ∈ rivals,
      (∀ b ∈ rivals, p.score state a.1 a.2.hint ≤ p.score state b.1 b.2.hint) →
      p.admits (p.score state key hint) (p.score state a.1 a.2.hint) = true

lemma sample_put (p : Policy σ) (expiresAt : ℕ) (o : EntryOrder) :
    (m.put p key value expiresAt).sample o key =
      m.rivals o key ⟨value, expiresAt, (p.recordInsert m.state key 0).2⟩ := rfl

lemma mem_evictIfNeeded_iff {p : Policy σ} {newKey : Bytes} {newHint : UInt64} {o : EntryOrder}
    (hnew : newKey ∈ m.data) (hfull : ¬ (m.maxEntries = 0 ∨ m.size ≤ m.maxEntries)) :
    newKey ∈ (m.evictIfNeeded o p newKey newHint false).2.data ↔
      ∀ a ∈ m.sample o newKey, (∀ b ∈ m.sample o newKey,
          p.score m.state a.1 a.2.hint ≤ p.score m.state b.1 b.2.hint) →
        p.admits (p.score m.state newKey newHint) (p.score m.state a.1 a.2.hint) = true := by
  have hvictim := sampleVictim_eq m o p newKey
  rcases hv : m.sampleVictim o p newKey with _ | ⟨k, s⟩
  · -- an empty sample
    have hempty : m.sample o newKey = [] := by
      by_contra hne
      obtain ⟨a, ha⟩ := List.exists_mem_of_ne_nil _ hne
      obtain ⟨hdata, hkey⟩ := mem_sample ha
      have hsome := sampleVictim_isSome (ExtTreeMap.getElem?_eq_some_iff.mp hdata).1 hkey o p
      rw [hv] at hsome
      cases hsome
    simp [evictIfNeeded, hfull, hv, hempty, hnew]
  · rw [hv] at hvictim
    obtain ⟨hlow, -, hfrom⟩ := foldl_weaker hvictim.symm
    obtain ⟨e, he, rfl⟩ := hfrom.resolve_left (by simp)
    have hne := (sampleVictim_spec hv).2
    have hmem : newKey ∈ (m.evictIfNeeded o p newKey newHint false).2.data ↔
        p.admits (p.score m.state newKey newHint) (p.score m.state k e.hint) = true := by
      simp only [evictIfNeeded, if_neg hfull, hv, Bool.false_or]
      split_ifs with hadm
      · simp [hadm, hnew, hne]
      · simp [hadm]
    rw [hmem]
    refine ⟨fun hadm a ha hleast => ?_, fun h => h _ he hlow⟩
    rwa [UInt64.le_antisymm (hleast _ he) (hlow a ha)]

/-- **An accepted pair is found in the store afterwards exactly if the store admits it.** -/
lemma mem_setEntry_iff (hacc : m.Accepts key value) (o : EntryOrder) (expiresAt : ℕ) :
    key ∈ (m.setEntry o key value expiresAt false).2.data ↔ m.Admits o key value expiresAt := by
  cases hp : m.policy with
  | none =>
    rw [setEntry_of_no_policy hacc hp]
    exact iff_of_true ExtTreeMap.mem_insert_self (.inl (.inl hp))
  | some p =>
    have hin : key ∈ (m.put p key value expiresAt).data := ExtTreeMap.mem_insert_self
    rw [setEntry_of_policy hp hacc]
    by_cases hold : m.data.contains key = true
    · rw [if_pos hold]
      exact iff_of_true hin (.inl (.inr (.inr (.inl hold))))
    · have hsize := size_put_of_notMem p value expiresAt (mt ExtTreeMap.contains_iff_mem.mpr hold)
      rw [if_neg hold]
      by_cases hfits : m.maxEntries = 0 ∨ (m.put p key value expiresAt).size ≤ m.maxEntries
      · rw [evictIfNeeded_of_le hfits]
        refine iff_of_true hin (.inl (.inr (hfits.imp_right fun h => .inr ?_)))
        rw [hsize] at h
        exact h
      · have hroom : ¬ m.Room key := by
          rintro (h | h | h | h)
          · rw [hp] at h
            cases h
          · exact hfits (.inl h)
          · exact hold h
          · exact hfits (.inr (hsize.trans_le h))
        rw [mem_evictIfNeeded_iff hin hfits, Admits, or_iff_right hroom, hp]
        simp only [Option.mem_some_iff, forall_eq', sample_put]
        rfl

end Kyria.Store.MapStore

namespace Kyria.Server

open Std (ExtTreeMap)
open Kyria.Lib.Cursor Kyria.Lib.MapOrder Kyria.Store Kyria.Store.MapStore
open Kyria.Protocol Kyria.Sha256 Kyria.Text

variable {σ : Type} (H : Hash)

/-- The unit of an option word, in nanoseconds. -/
def unitOf (option : Bytes) : Option ℕ :=
  if toUpper option = ascii "EX" then some Time.nanosPerSecond
  else if toUpper option = ascii "PX" then some Time.nanosPerMilli
  else none

lemma unitOf_pos {option : Bytes} {u : ℕ} (h : unitOf option = some u) : 0 < u := by
  unfold unitOf at h
  split_ifs at h <;> cases h <;> decide

lemma ttl_eq {option : Bytes} {u : ℕ} (h : unitOf option = some u) (n : ℤ) :
    ttl option n = some (Time.mulDuration (Int64.ofInt n) u) := by
  unfold unitOf at h
  unfold ttl
  split_ifs at h ⊢ <;> cases h <;> rfl

lemma mulDuration_eq_bmod (n : ℤ) (u : ℕ) :
    Time.mulDuration (Int64.ofInt n) u = (n * u).bmod (2 ^ 64) := by
  have hprod : Int64.ofInt n * Int64.ofNat u = Int64.ofInt (n * u) := by
    rw [Int64.ofInt_mul]
    rfl
  rw [Time.mulDuration, hprod, Int64.toInt_ofInt]
  rfl

lemma bmod_eq_self_iff {x : ℤ} (hpos : 0 < x) : x.bmod (2 ^ 64) = x ↔ x < 2 ^ 63 := by
  constructor
  · intro heq
    have hlt := Int.bmod_lt (x := x) (m := 2 ^ 64) (by norm_num)
    rw [heq] at hlt
    norm_num at hlt ⊢
    omega
  · exact fun hlt => Int.bmod_eq_of_le (by norm_num; omega) (by norm_num; omega)

/-- The reply to a `SET` is an error and the store is as before; or its time-to-live `span` is
positive and the entry is stored, and is found until it is over and not afterwards, in every
store that still holds it. -/
def TtlHonored (m : MapStore σ) (amb : Ambient) (cmd : Command) (key value : Bytes) (span : ℤ) :
    Prop :=
  let r := handle H (standalone m) amb cmd
  (∃ msg, r.1 = some (.error msg) ∧ r.2 = standalone m) ∨
  0 < span ∧ ∃ e : Entry, r.2.store.data[key]? = some e ∧
    (e.expiresAt : ℤ) = amb.env.now + span ∧
      ∀ (m' : MapStore σ) (amb' : Ambient), Keeps r.2.store m' key →
        (handle H (standalone m') amb' ⟨ascii "GET", [key]⟩).1 =
          some (.bulkString (if (amb'.env.now : ℤ) ≤ amb.env.now + span then some value else none))

lemma handle_get (m : MapStore σ) (amb : Ambient) (key : Bytes) :
    (handle H (standalone m) amb ⟨ascii "GET", [key]⟩).1 =
      some (.bulkString (m.get amb.env.now key).1) := by
  have hspec : commands (toUpper (ascii "GET")) = some ⟨1, 1, true, .get⟩ := rfl
  rw [handle_standalone H hspec le_rfl le_rfl]
  rfl

lemma handle_set (m : MapStore σ) (amb : Ambient) {name option number : Bytes}
    (key value : Bytes) (hname : toUpper name = ascii "SET") {n : ℤ} (hn : atoi number = some n)
    {u : ℕ} (hu : unitOf option = some u) :
    handle H (standalone m) amb ⟨name, [key, value, option, number]⟩ =
      (some (setReply (m.setWithTTL amb.env.entries amb.env.now key value
          (Time.mulDuration (Int64.ofInt n) u))).1,
        standalone (setReply (m.setWithTTL amb.env.entries amb.env.now key value
          (Time.mulDuration (Int64.ofInt n) u))).2) := by
  have hspec : commands (toUpper name) = some ⟨2, 4, true, .set⟩ := by
    rw [hname]
    rfl
  rw [handle_standalone H hspec (by simp) (by simp)]
  simp only [runVerb, set, hn, ttl_eq hu]
  rfl

lemma get_of_expiry {m m' : MapStore σ} {key : Bytes} {e : Entry} (he : m.data[key]? = some e)
    (hkeep : Keeps m m' key) (hpos : e.expiresAt ≠ 0) (t : ℕ) :
    (m'.get t key).1 = if t ≤ e.expiresAt then some e.value else none := by
  rw [Keeps, he] at hkeep
  obtain ⟨e', he', heq⟩ := Option.map_eq_some_iff.mp hkeep
  obtain ⟨hvalue, hexpires⟩ := Prod.ext_iff.mp heq
  simp only at hvalue hexpires
  rw [get_fst, he', ← hvalue, ← hexpires]
  split_ifs with ht
  · rw [Option.filter_some_pos (by simp [Entry.expired, ht]), Option.map_some]
  · have hexp : e'.expired t = true := by
      simp only [Entry.expired, hexpires, hpos, ne_eq, not_false_iff, decide_true, Bool.true_and,
        decide_eq_true_eq]
      omega
    rw [Option.filter_some_neg (by simp [hexp]), Option.map_none]

section Outcome

variable {m : MapStore σ} {key value : Bytes} {d : ℤ}

lemma setWithTTL_refused (h : ¬ (m.Accepts key value ∧ 0 < d)) (o : EntryOrder) (now : ℕ) :
    ∃ err, m.setWithTTL o now key value d = (.error err, m) := by
  unfold MapStore.setWithTTL
  split_ifs with hd
  · exact ⟨_, rfl⟩
  · exact setEntry_of_not_accepts (fun hacc => h ⟨hacc, by omega⟩) o _ false

lemma setWithTTL_stored (hacc : m.Accepts key value) (hd : 0 < d) (o : EntryOrder) (now : ℕ) :
    ∃ adm m₁, m.setWithTTL o now key value d = (.ok adm, m₁) ∧
      (key ∈ m₁.data ↔ m.Admits o key value (now + d.toNat)) ∧
      ∀ e : Entry, m₁.data[key]? = some e → e.value = value ∧ (e.expiresAt : ℤ) = now + d := by
  obtain ⟨adm, m₁, hstored, -⟩ := setEntry_of_accepts hacc o (now + d.toNat) false
  have hmem := mem_setEntry_iff hacc o (now + d.toNat)
  rw [hstored] at hmem
  refine ⟨adm, m₁, (if_neg (by omega)).trans hstored, hmem, fun e he => ?_⟩
  have hentry : (m.setEntry o key value (now + d.toNat) false).2.data[key]? = some e := by
    rw [hstored]
    exact he
  obtain ⟨hvalue, hexp⟩ := entry_of_setEntry hacc hentry
  exact ⟨hvalue, by rw [hexp]; push_cast; omega⟩

lemma ttlHonored_stored {amb : Ambient} {cmd : Command} {m₁ : MapStore σ} {span : ℤ}
    (hset : handle H (standalone m) amb cmd = (some (.simpleString (ascii "OK")), standalone m₁))
    (hentry : ∀ e : Entry, m₁.data[key]? = some e →
      e.value = value ∧ (e.expiresAt : ℤ) = amb.env.now + d) :
    TtlHonored H m amb cmd key value span ↔ 0 < span ∧ d = span ∧ key ∈ m₁.data := by
  unfold TtlHonored
  rw [hset]
  simp only [Option.some.injEq, reduceCtorEq, false_and, exists_false, false_or]
  refine and_congr_right fun hspan => ⟨?_, ?_⟩
  · rintro ⟨e, he, hexp, -⟩
    rw [(hentry e he).2] at hexp
    exact ⟨by omega, (ExtTreeMap.getElem?_eq_some_iff.mp he).1⟩
  · rintro ⟨rfl, hmem⟩
    obtain ⟨e, he⟩ := Option.isSome_iff_exists.mp (ExtTreeMap.isSome_getElem?_iff_mem.mpr hmem)
    obtain ⟨rfl, hexp⟩ := hentry e he
    refine ⟨e, he, hexp, fun m' amb' hkeep => ?_⟩
    have hiff : amb'.env.now ≤ e.expiresAt ↔ (amb'.env.now : ℤ) ≤ amb.env.now + d := by
      rw [← hexp]
      exact Nat.cast_le.symm
    rw [handle_get, get_of_expiry he hkeep (by omega)]
    simp only [hiff]

end Outcome

/-- **A time-to-live means what it says exactly if**, where the store takes the pair and the
product comes out positive modulo `2 ^ 64`, the number is positive, the product is not too large
and the store admits the entry. -/
theorem ttl_honored_iff (m : MapStore σ) (amb : Ambient) {name option number : Bytes}
    (key value : Bytes) (hname : toUpper name = ascii "SET") {n : ℤ} (hn : atoi number = some n)
    {u : ℕ} (hu : unitOf option = some u) :
    TtlHonored H m amb ⟨name, [key, value, option, number]⟩ key value (n * u) ↔
      (m.Accepts key value → 0 < (n * u).bmod (2 ^ 64) →
        0 < n ∧ n * u < 2 ^ 63 ∧
          m.Admits amb.env.entries key value (amb.env.now + (n * u).toNat)) := by
  have hspan : 0 < n * u ↔ 0 < n := mul_pos_iff_of_pos_right (by exact_mod_cast unitOf_pos hu)
  have hset := handle_set H m amb key value hname hn hu
  rw [mulDuration_eq_bmod] at hset
  by_cases hok : m.Accepts key value ∧ 0 < (n * u).bmod (2 ^ 64)
  · obtain ⟨adm, m₁, hstored, hmem, hentry⟩ :=
      setWithTTL_stored hok.1 hok.2 amb.env.entries amb.env.now
    rw [hstored] at hset
    change _ = (_, standalone m₁) at hset
    rw [ttlHonored_stored H hset hentry, hmem]
    simp only [hok.1, hok.2, forall_const, ← hspan]
    refine and_congr_right fun hpos => ?_
    rw [bmod_eq_self_iff hpos]
    refine and_congr_right fun hlt => ?_
    rw [(bmod_eq_self_iff hpos).mpr hlt]
  · obtain ⟨err, hrefused⟩ := setWithTTL_refused hok amb.env.entries amb.env.now
    rw [hrefused] at hset
    refine iff_of_true (.inl ?_) fun hacc hd => absurd ⟨hacc, hd⟩ hok
    rw [hset]
    exact ⟨_, rfl, rfl⟩

/-- A `SET` that is served at time 1. -/
def expiring (number : String) : Ambient × Command :=
  issued 1 "SET" ["k", "v", "EX", number]

theorem ttl_honored_five :
    TtlHonored sha256 ({ state := () } : MapStore Unit) (expiring "5").1 (expiring "5").2
      (ascii "k") (ascii "v") (5 * Time.nanosPerSecond) := by
  refine (ttl_honored_iff sha256 _ _ _ _ (by decide) (by decide) (by decide)).mpr fun _ _ => ?_
  exact ⟨by norm_num, by norm_num [Time.nanosPerSecond], .inl (.inl rfl)⟩

/-- The product of 18446744074 and a second comes out as 290448384 ns, that of -18446744073 and
a second as 709551616 ns. -/
theorem ttl_wraps_around :
    ¬ TtlHonored sha256 ({ state := () } : MapStore Unit) (expiring "18446744074").1
        (expiring "18446744074").2 (ascii "k") (ascii "v") (18446744074 * Time.nanosPerSecond) ∧
      ¬ TtlHonored sha256 ({ state := () } : MapStore Unit) (expiring "-18446744073").1
        (expiring "-18446744073").2 (ascii "k") (ascii "v")
        (-18446744073 * Time.nanosPerSecond) := by
  have hlong : (handle sha256 (standalone ({ state := () } : MapStore Unit))
      (expiring "18446744074").1 (expiring "18446744074").2).1 =
        some (.simpleString (ascii "OK")) ∧
      ((handle sha256 (standalone ({ state := () } : MapStore Unit))
        (expiring "18446744074").1 (expiring "18446744074").2).2.store.data[ascii "k"]?).map
          Entry.expiresAt = some (1 + 290448384) := by decide +kernel
  have hneg : (handle sha256 (standalone ({ state := () } : MapStore Unit))
      (expiring "-18446744073").1 (expiring "-18446744073").2).1 =
        some (.simpleString (ascii "OK")) := by decide +kernel
  constructor
  · rintro (⟨msg, hreply, -⟩ | ⟨-, e, he, hspan, -⟩)
    · rw [hlong.1] at hreply
      cases hreply
    · have hexp := hlong.2
      rw [he, Option.map_some, Option.some.injEq] at hexp
      rw [hexp] at hspan
      norm_num [expiring, issued, Time.nanosPerSecond] at hspan
  · rintro (⟨msg, hreply, -⟩ | ⟨hspan, -⟩)
    · rw [hneg] at hreply
      cases hreply
    · norm_num [Time.nanosPerSecond] at hspan

end Kyria.Server
