import Mathlib

/-!
Reading a byte string with a bounds-checked cursor.

A reader gets the whole input and an offset into it, and returns a value with the advanced
offset, or an error. `Recovers r x e` says that `r` gets `x` off the bytes `e` wherever
they stand in an input; it composes along sequencing and loops, which is how a decoder is proved
to invert an encoder that writes the same fields in the same order.
-/

namespace Kyria.Lib.Cursor

abbrev Bytes := List UInt8

instance : LawfulBEq Bytes := inferInstance

def Reader (ε α : Type) := Bytes → ℕ → Except ε (α × ℕ)

variable {ε α β σ : Type}

instance : Monad (Reader ε) where
  pure x := fun _ off => .ok (x, off)
  bind r f := fun data off =>
    match r data off with
    | .ok (x, off') => f x data off'
    | .error e => .error e

def Reader.fail (e : ε) : Reader ε α := fun _ _ => .error e

/-- The outcome of a computation that reads nothing. -/
def Reader.lift (x : Except ε α) : Reader ε α := fun _ off => x.map fun a => (a, off)

def Reader.mapError {ε' : Type} (f : ε → ε') (r : Reader ε α) : Reader ε' α :=
  fun data off => (r data off).mapError f

/-- The body run `n` times, its state threaded through. -/
def Reader.loop (body : σ → Reader ε σ) : ℕ → σ → Reader ε σ
  | 0, s => pure s
  | n + 1, s => do
    let s' ← body s
    Reader.loop body n s'

/-- On an input that has the bytes `e` at the cursor, `r` returns `x` and
stops right behind them. -/
def Recovers (r : Reader ε α) (x : α) (e : Bytes) : Prop :=
  ∀ pre post : Bytes, r (pre ++ e ++ post) pre.length = .ok (x, (pre ++ e).length)

lemma Recovers.whole {r : Reader ε α} {x : α} {e : Bytes} (h : Recovers r x e) :
    (r e 0).map Prod.fst = .ok x := by
  have := h [] []
  simp only [List.nil_append, List.append_nil, List.length_nil] at this
  rw [this]
  rfl

lemma Recovers.unique {r : Reader ε α} {x y : α} {e e' s t : Bytes} (h : Recovers r x e)
    (h' : Recovers r y e') (heq : e ++ s = e' ++ t) : x = y := by
  have h₁ := h [] s
  have h₂ := h' [] t
  simp only [List.nil_append, List.length_nil] at h₁ h₂
  rw [heq, h₂, Except.ok.injEq, Prod.mk.injEq] at h₁
  exact h₁.1.symm

lemma Recovers.pure (x : α) : Recovers (Pure.pure x : Reader ε α) x [] := by
  intro before after
  simp [Pure.pure]

lemma Recovers.bind {r : Reader ε α} {f : α → Reader ε β} {x : α} {y : β} {e e' : Bytes}
    (hr : Recovers r x e) (hf : Recovers (f x) y e') : Recovers (r >>= f) y (e ++ e') := by
  intro before after
  have h1 := hr before (e' ++ after)
  have h2 := hf (before ++ e) after
  simp only [List.append_assoc] at h1 h2
  simp only [Bind.bind, List.append_assoc, h1, h2]

lemma Recovers.loop_of_inv {body : σ → Reader ε σ} {e : β → Bytes} {f : σ → β → σ}
    {I : σ → List β → Prop} (xs : List β)
    (h : ∀ s x rest, I s (x :: rest) → Recovers (body s) (f s x) (e x) ∧ I (f s x) rest)
    (s : σ) (hs : I s xs) :
    Recovers (Reader.loop body xs.length s) (xs.foldl f s) (xs.flatMap e) := by
  induction xs generalizing s with
  | nil => exact Recovers.pure s
  | cons x xs ih =>
    obtain ⟨hx, hrest⟩ := h s x xs hs
    exact hx.bind (ih (f s x) hrest)

lemma Recovers.loop {body : σ → Reader ε σ} {e : β → Bytes} {f : σ → β → σ} (xs : List β)
    (h : ∀ s, ∀ x ∈ xs, Recovers (body s) (f s x) (e x)) (s : σ) :
    Recovers (Reader.loop body xs.length s) (xs.foldl f s) (xs.flatMap e) := by
  refine Recovers.loop_of_inv (I := fun _ rest => ∀ x ∈ rest, x ∈ xs) xs ?_ s fun _ hx => hx
  intro s x rest hsub
  exact ⟨h s x (hsub x (by simp)), fun y hy => hsub y (by simp [hy])⟩

lemma Recovers.mapError {ε' : Type} {r : Reader ε α} {x : α} {e : Bytes} (h : Recovers r x e)
    (f : ε → ε') : Recovers (r.mapError f) x e := by
  intro before after
  rw [Reader.mapError, h before after]
  rfl

lemma foldl_snoc (l acc : List α) : l.foldl (fun s x => s ++ [x]) acc = acc ++ l := by
  induction l generalizing acc with
  | nil => simp
  | cons x l ih => simp [ih]

lemma Recovers.collect {body : List β → Reader ε (List β)} {e : β → Bytes} (xs : List β)
    (h : ∀ s, ∀ x ∈ xs, Recovers (body s) (s ++ [x]) (e x)) :
    Recovers (Reader.loop body xs.length []) xs (xs.flatMap e) := by
  have hloop := Recovers.loop (f := fun s x => s ++ [x]) xs h []
  rwa [foldl_snoc, List.nil_append] at hloop

/-- `r` gets `x` off the bytes `e`, and fails on an input that ends inside of them. -/
structure Exact (r : Reader ε α) (x : α) (e : Bytes) : Prop where
  recovers : Recovers r x e
  truncated : ∀ pre cut post : Bytes, e = cut ++ post → post ≠ [] →
    ∃ err, r (pre ++ cut) pre.length = .error err

lemma Exact.pure (x : α) : Exact (Pure.pure x : Reader ε α) x [] where
  recovers := .pure x
  truncated _ _ _ he hne := absurd (List.append_eq_nil_iff.mp he.symm).2 hne

lemma Exact.bind {r : Reader ε α} {f : α → Reader ε β} {x : α} {y : β} {e e' : Bytes}
    (hr : Exact r x e) (hf : Exact (f x) y e') : Exact (r >>= f) y (e ++ e') where
  recovers := hr.recovers.bind hf.recovers
  truncated pre cut post he hne := by
    -- where `e` is complete, `r` goes through and the cut is in `e'`
    have hcut : ∀ as, cut = e ++ as → e' = as ++ post →
        ∃ err, (r >>= f) (pre ++ cut) pre.length = .error err := by
      rintro as rfl he'
      have h := hr.recovers pre as
      rw [List.append_assoc] at h
      obtain ⟨err, herr⟩ := hf.truncated (pre ++ e) as post he' hne
      rw [List.append_assoc] at herr
      exact ⟨err, by simp only [Bind.bind, h, herr]⟩
    rcases List.append_eq_append_iff.mp he with ⟨as, hc, he'⟩ | ⟨bs, hc, hp⟩
    · exact hcut as hc he'
    · by_cases hbs : bs = []
      · subst hbs
        exact hcut [] (by simpa using hc.symm) (by simpa using hp.symm)
      · obtain ⟨err, herr⟩ := hr.truncated pre cut bs hc hbs
        exact ⟨err, by simp only [Bind.bind, herr]⟩

lemma Exact.loop {body : σ → Reader ε σ} {e : β → Bytes} {f : σ → β → σ} (xs : List β)
    (h : ∀ s, ∀ x ∈ xs, Exact (body s) (f s x) (e x)) (s : σ) :
    Exact (Reader.loop body xs.length s) (xs.foldl f s) (xs.flatMap e) := by
  induction xs generalizing s with
  | nil => exact Exact.pure s
  | cons x xs ih =>
    exact (h s x (by simp)).bind (ih (fun s y hy => h s y (by simp [hy])) (f s x))

lemma Exact.collect {body : List β → Reader ε (List β)} {e : β → Bytes} (xs : List β)
    (h : ∀ s, ∀ x ∈ xs, Exact (body s) (s ++ [x]) (e x)) :
    Exact (Reader.loop body xs.length []) xs (xs.flatMap e) := by
  have hloop := Exact.loop (f := fun s x => s ++ [x]) xs h []
  rwa [foldl_snoc, List.nil_append] at hloop

lemma Exact.lift {x : Except ε α} {a : α} (h : x = .ok a) : Exact (Reader.lift x) a [] := by
  rw [h]
  exact Exact.pure a

lemma Exact.mapError {ε' : Type} {r : Reader ε α} {x : α} {e : Bytes} (h : Exact r x e)
    (f : ε → ε') : Exact (r.mapError f) x e where
  recovers := h.recovers.mapError f
  truncated pre cut post he hne := by
    obtain ⟨err, herr⟩ := h.truncated pre cut post he hne
    exact ⟨f err, by rw [Reader.mapError, herr]; rfl⟩

lemma Exact.whole_truncated {r : Reader ε α} {x : α} {e cut post : Bytes} (h : Exact r x e)
    (he : e = cut ++ post) (hne : post ≠ []) : ∃ err, (r cut 0).map Prod.fst = .error err := by
  obtain ⟨err, herr⟩ := h.truncated [] cut post he hne
  rw [List.nil_append, List.length_nil] at herr
  exact ⟨err, by rw [herr]; rfl⟩

/-- On every input `r` fails with an error that satisfies `E`, or returns something that
satisfies `P`. -/
def Yields (r : Reader ε α) (E : ε → Prop) (P : α → Prop) : Prop :=
  ∀ data off, (∃ e, r data off = .error e ∧ E e) ∨ ∃ x off', r data off = .ok (x, off') ∧ P x

lemma Yields.pure {E : ε → Prop} {P : α → Prop} {x : α} (h : P x) :
    Yields (Pure.pure x : Reader ε α) E P :=
  fun _ off => .inr ⟨x, off, rfl, h⟩

lemma Yields.bind {r : Reader ε α} {f : α → Reader ε β} {E : ε → Prop} {P : α → Prop}
    {Q : β → Prop} (hr : Yields r E P) (hf : ∀ x, P x → Yields (f x) E Q) :
    Yields (r >>= f) E Q := by
  intro data off
  rcases hr data off with ⟨e, he, hE⟩ | ⟨x, off', hx, hP⟩
  · exact .inl ⟨e, by simp only [Bind.bind, he], hE⟩
  · rcases hf x hP data off' with ⟨e, he, hE⟩ | ⟨y, off'', hy, hQ⟩
    · exact .inl ⟨e, by simp only [Bind.bind, hx, he], hE⟩
    · exact .inr ⟨y, off'', by simp only [Bind.bind, hx, hy], hQ⟩

lemma Yields.mapError {ε' : Type} (r : Reader ε α) (e : ε') :
    Yields (r.mapError fun _ => e) (· = e) fun _ => True := by
  intro data off
  rcases hr : r data off with err | ⟨x, off'⟩
  · exact .inl ⟨e, by rw [Reader.mapError, hr]; rfl, rfl⟩
  · exact .inr ⟨x, off', by rw [Reader.mapError, hr]; rfl, trivial⟩

lemma Yields.loop {body : σ → Reader ε σ} {E : ε → Prop} {P : ℕ → σ → Prop} {n : ℕ}
    (h : ∀ k < n, ∀ s, P k s → Yields (body s) E (P (k + 1))) {m k : ℕ} (hk : k + m = n) {s : σ}
    (hs : P k s) : Yields (Reader.loop body m s) E (P n) := by
  induction m generalizing k s with
  | zero => exact Yields.pure (hk ▸ hs)
  | succ m ih => exact (h k (by omega) s hs).bind fun s' hs' => ih (by omega) hs'

/-- Whatever `r` returns satisfies `P`, on every input. -/
def Ensures (r : Reader ε α) (P : α → Prop) : Prop :=
  ∀ data off x off', r data off = .ok (x, off') → P x

lemma ensures_iff {r : Reader ε α} {P : α → Prop} : Ensures r P ↔ Yields r (fun _ => True) P := by
  constructor
  · intro h data off
    rcases hr : r data off with err | ⟨x, off'⟩
    · exact .inl ⟨err, rfl, True.intro⟩
    · exact .inr ⟨x, off', rfl, h data off x off' hr⟩
  · intro h data off x off' hx
    rcases h data off with ⟨err, herr, -⟩ | ⟨y, off'', hy, hP⟩
    · rw [herr] at hx
      cases hx
    · rw [hy] at hx
      cases hx
      exact hP

lemma Ensures.pure {P : α → Prop} {x : α} (h : P x) : Ensures (Pure.pure x : Reader ε α) P :=
  ensures_iff.mpr (Yields.pure h)

lemma Ensures.bind {r : Reader ε α} {f : α → Reader ε β} {P : α → Prop} {Q : β → Prop}
    (hr : Ensures r P) (hf : ∀ x, P x → Ensures (f x) Q) : Ensures (r >>= f) Q :=
  ensures_iff.mpr ((ensures_iff.mp hr).bind fun x hx => ensures_iff.mp (hf x hx))

lemma Ensures.trivial (r : Reader ε α) : Ensures r fun _ => True := by
  intro _ _ _ _ _
  exact True.intro

lemma Ensures.whole {r : Reader ε α} {P : α → Prop} (h : Ensures r P) {data : Bytes} {off : ℕ}
    {x : α} (hx : (r data off).map Prod.fst = .ok x) : P x := by
  rcases hr : r data off with err | ⟨y, off'⟩
  · simp [hr, Except.map] at hx
  · obtain rfl : y = x := by simpa [hr, Except.map] using hx
    exact h data off y off' hr

lemma Ensures.loop {body : σ → Reader ε σ} {P : ℕ → σ → Prop}
    (h : ∀ k s, P k s → Ensures (body s) (P (k + 1))) (n k : ℕ) (s : σ) (hs : P k s) :
    Ensures (Reader.loop body n s) (P (k + n)) :=
  ensures_iff.mpr (Yields.loop (fun j _ s hj => ensures_iff.mp (h j s hj)) rfl hs)

/-- Whatever `r` returns, it has read bytes off the input that `P` relates to the result. -/
def Consumes (r : Reader ε α) (P : α → Bytes → Prop) : Prop :=
  ∀ data off x off', r data off = .ok (x, off') →
    ∃ e, P x e ∧ data.drop off = e ++ data.drop off' ∧ off' = off + e.length

lemma Consumes.mono {r : Reader ε α} {P Q : α → Bytes → Prop} (h : Consumes r P)
    (hPQ : ∀ x e, P x e → Q x e) : Consumes r Q := by
  intro data off x off' hx
  obtain ⟨e, he, hrest⟩ := h data off x off' hx
  exact ⟨e, hPQ x e he, hrest⟩

lemma Consumes.pure (x : α) : Consumes (Pure.pure x : Reader ε α) fun y e => y = x ∧ e = [] := by
  intro data off y off' hy
  simp only [Pure.pure, Except.ok.injEq, Prod.mk.injEq] at hy
  obtain ⟨rfl, rfl⟩ := hy
  exact ⟨[], ⟨rfl, rfl⟩, rfl, rfl⟩

lemma Consumes.fail (err : ε) (P : α → Bytes → Prop) : Consumes (Reader.fail err) P := by
  intro data off x off' hx
  cases hx

lemma Consumes.lift (y : Except ε α) :
    Consumes (Reader.lift y) fun x e => y = .ok x ∧ e = [] := by
  intro data off x off' hx
  rcases y with err | a
  · cases hx
  · simp only [Reader.lift, Except.map, Except.ok.injEq, Prod.mk.injEq] at hx
    obtain ⟨rfl, rfl⟩ := hx
    exact ⟨[], ⟨rfl, rfl⟩, rfl, rfl⟩

lemma Consumes.mapError {ε' : Type} {r : Reader ε α} {P : α → Bytes → Prop} (h : Consumes r P)
    (f : ε → ε') : Consumes (r.mapError f) P := by
  intro data off x off' hx
  unfold Reader.mapError at hx
  rcases hr : r data off with err | ⟨y, o⟩
  · rw [hr] at hx
    cases hx
  · rw [hr] at hx
    simp only [Except.mapError, Except.ok.injEq, Prod.mk.injEq] at hx
    obtain ⟨rfl, rfl⟩ := hx
    exact h data off y o hr

lemma Consumes.bind {r : Reader ε α} {f : α → Reader ε β} {P : α → Bytes → Prop}
    {Q : α → β → Bytes → Prop} (hr : Consumes r P) (hf : ∀ x, Consumes (f x) (Q x)) :
    Consumes (r >>= f) fun y e => ∃ x e₁ e₂, e = e₁ ++ e₂ ∧ P x e₁ ∧ Q x y e₂ := by
  intro data off y off' hy
  simp only [Bind.bind] at hy
  split at hy
  · next x off₁ h₁ =>
    obtain ⟨e₁, hP, hd₁, rfl⟩ := hr _ _ _ _ h₁
    obtain ⟨e₂, hQ, hd₂, rfl⟩ := hf x _ _ _ _ hy
    refine ⟨e₁ ++ e₂, ⟨x, e₁, e₂, rfl, hP, hQ⟩, ?_, ?_⟩
    · rw [hd₁, hd₂, List.append_assoc]
    · rw [List.length_append, Nat.add_assoc]
  · cases hy

lemma Consumes.collect {r : Reader ε β} {P : β → Bytes → Prop} (h : Consumes r P) (n : ℕ)
    (acc : List β) :
    Consumes (Reader.loop (fun acc => do let x ← r; return acc ++ [x]) n acc) fun xs e =>
      ∃ parts : List (β × Bytes), parts.length = n ∧ xs = acc ++ parts.map Prod.fst ∧
        e = parts.flatMap Prod.snd ∧ ∀ p ∈ parts, P p.1 p.2 := by
  induction n generalizing acc with
  | zero =>
    refine (Consumes.pure acc).mono ?_
    rintro xs e ⟨rfl, rfl⟩
    exact ⟨[], rfl, by simp, rfl, by simp⟩
  | succ n ih =>
    refine ((h.bind fun x => Consumes.pure (acc ++ [x])).bind fun acc' => ih acc').mono ?_
    rintro xs e ⟨acc', e₁, e₂, rfl, ⟨x, e₃, e₄, rfl, hx, rfl, rfl⟩, parts, rfl, rfl, rfl, hparts⟩
    refine ⟨(x, e₃) :: parts, rfl, by simp, by simp, ?_⟩
    intro p hp
    rcases List.mem_cons.mp hp with rfl | hp
    · exact hx
    · exact hparts p hp

/-! ### Readers that agree on the rest of an input -/

lemma Reader.bind_congr {r : Reader ε α} {f g : α → Reader ε β} {data : Bytes} {off : ℕ}
    (h : ∀ x off', r data off = .ok (x, off') → f x data off' = g x data off') :
    (r >>= f) data off = (r >>= g) data off := by
  simp only [Bind.bind]
  rcases hr : r data off with err | ⟨x, off'⟩
  · rfl
  · exact h x off' hr

lemma Consumes.le {r : Reader ε α} {P : α → Bytes → Prop} (h : Consumes r P) {data : Bytes}
    {off off' : ℕ} {x : α} (hx : r data off = .ok (x, off')) : off ≤ off' := by
  obtain ⟨e, -, -, rfl⟩ := h data off x off' hx
  exact Nat.le_add_right _ _

lemma Reader.collect_congr {r r' : Reader ε β} {P : β → Bytes → Prop} (hr : Consumes r P)
    {data : Bytes} (n : ℕ) {off : ℕ} (h : ∀ off', off ≤ off' → r data off' = r' data off')
    (acc : List β) :
    Reader.loop (fun acc => do let x ← r; return acc ++ [x]) n acc data off =
      Reader.loop (fun acc => do let x ← r'; return acc ++ [x]) n acc data off := by
  induction n generalizing off acc with
  | zero => rfl
  | succ n ih =>
    have hitem : (do let x ← r; return acc ++ [x] : Reader ε (List β)) data off =
        (do let x ← r'; return acc ++ [x] : Reader ε (List β)) data off := by
      simp only [Bind.bind, h off le_rfl]
    rw [Reader.loop, Reader.loop]
    calc _ = ((do let x ← r; return acc ++ [x]) >>= fun acc =>
          Reader.loop (fun acc => do let x ← r'; return acc ++ [x]) n acc) data off := by
            refine Reader.bind_congr fun acc' off' hacc => ih (fun o ho => h o ?_) acc'
            exact ((hr.bind fun x => Consumes.pure (acc ++ [x])).le hacc).trans ho
      _ = _ := by simp only [Bind.bind] at hitem ⊢; rw [hitem]

/-! ### Readers of a stream that is still coming in -/

/-- On the part of an input that has come in, `r` waits for more or does what it does on all of
it. -/
def Streams (r : Reader ε α) (wait : ε) : Prop :=
  ∀ data more off, r data off = .error wait ∨ r (data ++ more) off = r data off

variable {wait : ε}

lemma Streams.pure (x : α) : Streams (Pure.pure x : Reader ε α) wait := fun _ _ _ => .inr rfl

lemma Streams.fail (err : ε) : Streams (Reader.fail err : Reader ε α) wait := fun _ _ _ => .inr rfl

lemma Streams.lift (x : Except ε α) : Streams (Reader.lift x) wait := fun _ _ _ => .inr rfl

lemma Streams.bind {r : Reader ε α} {f : α → Reader ε β} (hr : Streams r wait)
    (hf : ∀ x, Streams (f x) wait) : Streams (r >>= f) wait := by
  intro data more off
  rcases hr data more off with hwait | hsame
  · exact .inl (by simp only [Bind.bind, hwait])
  · simp only [Bind.bind, hsame]
    rcases r data off with err | ⟨x, off'⟩
    · exact .inr rfl
    · exact hf x data more off'

lemma Streams.loop {body : σ → Reader ε σ} (h : ∀ s, Streams (body s) wait) (n : ℕ) (s : σ) :
    Streams (Reader.loop body n s) wait := by
  induction n generalizing s with
  | zero => exact .pure s
  | succ n ih => exact (h s).bind ih

lemma Streams.ok {r : Reader ε α} (h : Streams r wait) {data : Bytes} {off : ℕ} {y : α × ℕ}
    (hy : r data off = .ok y) (more : Bytes) : r (data ++ more) off = .ok y := by
  rcases h data more off with hwait | hsame
  · rw [hwait] at hy
    cases hy
  · rw [hsame, hy]

lemma sum_le_length_flatMap {f : α → Bytes} {g : α → ℕ} {l : List α}
    (h : ∀ x ∈ l, g x ≤ (f x).length) : (l.map g).sum ≤ (l.flatMap f).length := by
  induction l with
  | nil => simp
  | cons x l ih =>
    have hx := h x (by simp)
    have hl := ih fun y hy => h y (by simp [hy])
    simp only [List.map_cons, List.sum_cons, List.flatMap_cons, List.length_append]
    omega

lemma eq_of_flatMap_eq {f g : α → Bytes} {l : List α} (hlen : ∀ x ∈ l, (f x).length = (g x).length)
    (h : l.flatMap f = l.flatMap g) : ∀ x ∈ l, f x = g x := by
  induction l with
  | nil => simp
  | cons y l ih =>
    rw [List.flatMap_cons, List.flatMap_cons] at h
    obtain ⟨hy, hl⟩ := List.append_inj h (hlen y (by simp))
    intro x hx
    rcases List.mem_cons.mp hx with rfl | hx
    · exact hy
    · exact ih (fun z hz => hlen z (by simp [hz])) hl x hx

/-! ### Big-endian numbers -/

/-- The low `w` bytes of `n`, the most significant first. -/
def bigEndian : ℕ → ℕ → Bytes
  | 0, _ => []
  | w + 1, n => UInt8.ofNat (n / 256 ^ w) :: bigEndian w n

def ofBigEndian (b : Bytes) : ℕ := b.foldl (fun acc x => acc * 256 + x.toNat) 0

@[simp] lemma length_bigEndian (w n : ℕ) : (bigEndian w n).length = w := by
  induction w with
  | zero => rfl
  | succ w ih => simp [bigEndian, ih]

lemma foldl_bigEndian (w n acc : ℕ) :
    (bigEndian w n).foldl (fun acc x => acc * 256 + x.toNat) acc
      = acc * 256 ^ w + n % 256 ^ w := by
  induction w generalizing acc with
  | zero => simp [bigEndian, Nat.mod_one]
  | succ w ih =>
    have hsplit : n % 256 ^ (w + 1) = n % 256 ^ w + 256 ^ w * (n / 256 ^ w % 256) :=
      Nat.mod_pow_succ
    have hbyte : (UInt8.ofNat (n / 256 ^ w)).toNat = n / 256 ^ w % 256 := UInt8.toNat_ofNat'
    rw [bigEndian, List.foldl_cons, ih, hbyte, hsplit]
    ring

lemma ofBigEndian_bigEndian (w n : ℕ) : ofBigEndian (bigEndian w n) = n % 256 ^ w := by
  simp [ofBigEndian, foldl_bigEndian]

end Kyria.Lib.Cursor
