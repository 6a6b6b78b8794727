import Kyria.Protocol.Resp

/-!
The grammar of RESP, and what the decoder takes beyond it.

`Wire v e` says that the bytes `e` are a well-formed way of writing `v`. A `Frame` is what the
decoder has read off the stream for a value, with the parts it does not look at. It takes a
frame for more than the grammar allows in three places: what stands for the CRLF behind a bulk
string, a negative length other than -1, and a number that wraps around.
-/

namespace Kyria.Protocol

open Kyria.Lib.Cursor Kyria.Text

/-- The wire forms of a value. -/
inductive Wire : Value → Bytes → Prop
  | simpleString {t : Bytes} : 10 ∉ t → Wire (.simpleString t) (43 :: (t ++ crlf))
  | error {t : Bytes} : 10 ∉ t → Wire (.error t) (45 :: (t ++ crlf))
  | integer {t : Bytes} {i : Int64} : literal t = some i.toInt →
      Wire (.integer i) (58 :: (t ++ crlf))
  | nullBulk {t : Bytes} : literal t = some (-1) → Wire (.bulkString none) (36 :: (t ++ crlf))
  | bulk {t b : Bytes} : literal t = some (b.length : ℤ) →
      Wire (.bulkString (some b)) (36 :: (t ++ crlf) ++ (b ++ crlf))
  | nullArray {t : Bytes} : literal t = some (-1) → Wire .nullArray (42 :: (t ++ crlf))
  | array {t : Bytes} {parts : List (Value × Bytes)} : literal t = some (parts.length : ℤ) →
      (∀ p ∈ parts, Wire p.1 p.2) →
      Wire (.array (parts.map Prod.fst)) (42 :: (t ++ crlf) ++ parts.flatMap Prod.snd)

/-! ### Frames -/

/-- A value as it stands in the stream: the text of its line, and what follows. -/
inductive Frame
  | simpleString (text : Bytes)
  | error (text : Bytes)
  | integer (text : Bytes)
  | nullBulk (text : Bytes)
  | bulk (text payload trailer : Bytes)
  | nullArray (text : Bytes)
  | array (text : Bytes) (elems : List Frame)

instance : Inhabited Frame := ⟨.simpleString []⟩

mutual

def Frame.bytes : Frame → Bytes
  | .simpleString t => 43 :: (t ++ crlf)
  | .error t => 45 :: (t ++ crlf)
  | .integer t => 58 :: (t ++ crlf)
  | .nullBulk t => 36 :: (t ++ crlf)
  | .bulk t b w => 36 :: (t ++ crlf) ++ (b ++ w)
  | .nullArray t => 42 :: (t ++ crlf)
  | .array t elems => 42 :: (t ++ crlf) ++ Frame.bytesOf elems

def Frame.bytesOf : List Frame → Bytes
  | [] => []
  | f :: elems => f.bytes ++ Frame.bytesOf elems

end

mutual

def Frame.value : Frame → Value
  | .simpleString t => .simpleString t
  | .error t => .error t
  | .integer t => .integer (Int64.ofInt ((literal t).getD 0))
  | .nullBulk _ => .bulkString none
  | .bulk _ b _ => .bulkString (some b)
  | .nullArray _ => .nullArray
  | .array _ elems => .array (Frame.valuesOf elems)

def Frame.valuesOf : List Frame → List Value
  | [] => []
  | f :: elems => f.value :: Frame.valuesOf elems

end

lemma bytesOf_eq (fs : List Frame) : Frame.bytesOf fs = fs.flatMap Frame.bytes := by
  induction fs with
  | nil => rfl
  | cons f fs ih => rw [Frame.bytesOf, ih, List.flatMap_cons]

lemma valuesOf_eq (fs : List Frame) : Frame.valuesOf fs = fs.map Frame.value := by
  induction fs with
  | nil => rfl
  | cons f fs ih => rw [Frame.valuesOf, ih, List.map_cons]

/-- The frames the decoder takes. -/
inductive Frame.Taken : Frame → Prop
  | simpleString {t : Bytes} : Line t → Taken (.simpleString t)
  | error {t : Bytes} : Line t → Taken (.error t)
  | integer {t : Bytes} {z : ℤ} : Line t → literal t = some z → Taken (.integer t)
  | nullBulk {t : Bytes} {z : ℤ} : Line t → literal t = some z → (Int64.ofInt z).toInt < 0 →
      Taken (.nullBulk t)
  | bulk {t b w : Bytes} {z : ℤ} : Line t → literal t = some z →
      (Int64.ofInt z).toInt = b.length → b.length ≤ maxBulkSize → w.length = 2 →
      Taken (.bulk t b w)
  | nullArray {t : Bytes} {z : ℤ} : Line t → literal t = some z → (Int64.ofInt z).toInt < 0 →
      Taken (.nullArray t)
  | array {t : Bytes} {z : ℤ} {elems : List Frame} : Line t → literal t = some z →
      (Int64.ofInt z).toInt = elems.length → elems.length ≤ maxArrayCount →
      (∀ f ∈ elems, Taken f) → Taken (.array t elems)

/-- The number on a line is one of a machine integer. -/
def Representable (t : Bytes) : Prop := ∃ z, literal t = some z ∧ -2 ^ 63 ≤ z ∧ z < 2 ^ 63

/-- No number wraps around, every negative length is -1, and behind every bulk string stands
CRLF. -/
inductive Frame.Proper : Frame → Prop
  | simpleString (t : Bytes) : Proper (.simpleString t)
  | error (t : Bytes) : Proper (.error t)
  | integer {t : Bytes} : Representable t → Proper (.integer t)
  | nullBulk {t : Bytes} : literal t = some (-1) → Proper (.nullBulk t)
  | bulk {t : Bytes} (b : Bytes) : Representable t → Proper (.bulk t b crlf)
  | nullArray {t : Bytes} : literal t = some (-1) → Proper (.nullArray t)
  | array {t : Bytes} {elems : List Frame} : Representable t → (∀ f ∈ elems, Proper f) →
      Proper (.array t elems)

/-- **Whatever the decoder returns, it has read off a frame.** -/
lemma consumes_decodeWith_frame (fuel : ℕ) :
    Consumes (decodeWith fuel) fun v e => ∃ f : Frame, f.Taken ∧ f.value = v ∧ f.bytes = e := by
  induction fuel with
  | zero => exact Consumes.fail _ _
  | succ fuel ih =>
    refine (consumes_decodeBody ih).mono fun v e hread => ?_
    cases hread with
    | simpleString hline => exact ⟨.simpleString _, .simpleString hline, rfl, rfl⟩
    | error hline => exact ⟨.error _, .error hline, rfl, rfl⟩
    | @integer t z hline hz =>
      exact ⟨.integer t, .integer hline hz, by rw [Frame.value, hz, Option.getD_some], rfl⟩
    | nullBulk hline hz hneg => exact ⟨.nullBulk _, .nullBulk hline hz hneg, rfl, rfl⟩
    | bulk hline hz hlen hmax hw => exact ⟨.bulk _ _ _, .bulk hline hz hlen hmax hw, rfl, rfl⟩
    | nullArray hline hz hneg => exact ⟨.nullArray _, .nullArray hline hz hneg, rfl, rfl⟩
    | @array t z parts hline hz hlen hmax hparts =>
      choose! F hF using hparts
      refine ⟨.array t (parts.map F), .array hline hz ?_ ?_ ?_, ?_, ?_⟩
      · rwa [List.length_map]
      · rwa [List.length_map]
      · intro f hf
        obtain ⟨p, hp, rfl⟩ := List.mem_map.mp hf
        exact (hF p hp).1
      · rw [Frame.value, valuesOf_eq, List.map_map]
        exact congrArg Value.array (List.map_congr_left fun p hp => (hF p hp).2.1)
      · rw [Frame.bytes, bytesOf_eq, List.flatMap_map]
        exact congrArg _ (List.flatMap_congr fun p hp => (hF p hp).2.2)

/-! ### Frames and the grammar -/

lemma not_mem_of_literal {t : Bytes} {z : ℤ} (h : literal t = some z) : 10 ∉ t := by
  have hdigits : ∀ ds : Bytes, ds.all isDigit = true → (10 : UInt8) ∉ ds := by
    intro ds hall hmem
    have := List.all_eq_true.mp hall 10 hmem
    simp [isDigit] at this
  unfold literal at h
  split at h
  · split_ifs at h with hbad
    rw [not_or, not_not] at hbad
    simpa using hdigits _ hbad.2
  · split_ifs at h with hbad
    rw [not_or, not_not] at hbad
    exact hdigits _ hbad.2

lemma line_unique {t t' x y : Bytes} (h : 10 ∉ t) (h' : 10 ∉ t')
    (heq : t ++ crlf ++ x = t' ++ crlf ++ y) : t = t' ∧ x = y := by
  have hfeed : ∀ u : Bytes, 10 ∉ u → (10 : UInt8) ∉ u ++ [13] := fun u hu => by simpa using hu
  have hshape : ∀ u w : Bytes, u ++ crlf ++ w = (u ++ [13]) ++ 10 :: w := fun u w => by simp [crlf]
  rw [hshape, hshape] at heq
  have hlen : (t ++ [13]).length = (t' ++ [13]).length := by
    rw [← findIdx_append_cons (hfeed t h) x, heq, findIdx_append_cons (hfeed t' h') y]
  obtain ⟨hline, hrest⟩ := List.append_inj heq hlen
  exact ⟨List.append_cancel_right hline, (List.cons.inj hrest).2⟩

lemma Line.unique {t t' x y : Bytes} {z : ℤ} (h : Line t) (h' : literal t' = some z)
    (heq : t ++ crlf ++ x = t' ++ crlf ++ y) : t = t' ∧ x = y :=
  line_unique h.noFeed (not_mem_of_literal h') heq

lemma representable_of_toInt {t : Bytes} {i : Int64} (h : literal t = some i.toInt) :
    Representable t := ⟨i.toInt, h, i.le_toInt, i.toInt_lt⟩

lemma eq_of_representable {t : Bytes} {z : ℤ} (h : Representable t) (hz : literal t = some z) :
    (Int64.ofInt z).toInt = z := by
  obtain ⟨z', hz', hlo, hhi⟩ := h
  cases Option.some.inj (hz.symm.trans hz')
  exact Int64.toInt_ofInt_of_le hlo hhi

lemma Frame.Taken.wire {f : Frame} (h : f.Taken) (hp : f.Proper) : Wire f.value f.bytes := by
  induction h with
  | simpleString hline => exact .simpleString hline.noFeed
  | error hline => exact .error hline.noFeed
  | integer hline hz =>
    cases hp with
    | integer hrep =>
      rw [Frame.value, hz, Option.getD_some]
      exact .integer (by rw [eq_of_representable hrep hz, hz])
  | nullBulk hline hz hneg =>
    cases hp with
    | nullBulk hlit => exact .nullBulk hlit
  | bulk hline hz hlen hmax hw =>
    cases hp with
    | bulk _ hrep =>
      rw [eq_of_representable hrep hz] at hlen
      exact .bulk (hz.trans (congrArg some hlen))
  | nullArray hline hz hneg =>
    cases hp with
    | nullArray hlit => exact .nullArray hlit
  | @array t z elems hline hz hlen hmax _ ih =>
    cases hp with
    | array hrep hall =>
      rw [eq_of_representable hrep hz] at hlen
      have hwire : Wire (.array ((elems.map fun f => (f.value, f.bytes)).map Prod.fst))
          (42 :: (t ++ crlf) ++ (elems.map fun f => (f.value, f.bytes)).flatMap Prod.snd) := by
        refine .array (by rw [List.length_map, hz, hlen]) fun p hp => ?_
        obtain ⟨f, hf, rfl⟩ := List.mem_map.mp hp
        exact ih f hf (hall f hf)
      rw [List.map_map, List.flatMap_map] at hwire
      rw [Frame.value, valuesOf_eq, Frame.bytes, bytesOf_eq]
      exact hwire

lemma proper_elems {elems : List Frame}
    (ih : ∀ f ∈ elems, ∀ e x y, Wire f.value e → f.bytes ++ x = e ++ y →
      e = f.bytes ∧ f.Proper)
    {parts : List (Value × Bytes)} (hvals : parts.map Prod.fst = elems.map Frame.value)
    (hparts : ∀ p ∈ parts, Wire p.1 p.2) {x y : Bytes}
    (heq : elems.flatMap Frame.bytes ++ x = parts.flatMap Prod.snd ++ y) :
    parts.flatMap Prod.snd = elems.flatMap Frame.bytes ∧ ∀ f ∈ elems, f.Proper := by
  induction elems generalizing parts with
  | nil =>
    rw [List.map_nil, List.map_eq_nil_iff] at hvals
    rw [hvals]
    exact ⟨rfl, by simp⟩
  | cons f elems ihl =>
    obtain ⟨⟨v, e⟩, parts, rfl, hv, hrestvals⟩ := List.map_eq_cons_iff.mp hvals
    rw [List.flatMap_cons, List.flatMap_cons, List.append_assoc, List.append_assoc] at heq
    have hwire : Wire f.value e := hv ▸ hparts (v, e) List.mem_cons_self
    obtain ⟨rfl, hf⟩ := ih f List.mem_cons_self e _ _ hwire heq
    obtain ⟨hrest, hall⟩ := ihl (fun g hg => ih g (List.mem_cons_of_mem _ hg)) hrestvals
      (fun p hp => hparts p (List.mem_cons_of_mem _ hp)) (List.append_cancel_left heq)
    refine ⟨by rw [List.flatMap_cons, List.flatMap_cons, hrest], fun g hg => ?_⟩
    rcases List.mem_cons.mp hg with rfl | hg
    · exact hf
    · exact hall g hg

lemma Frame.Taken.proper {f : Frame} (h : f.Taken) :
    ∀ e x y, Wire f.value e → f.bytes ++ x = e ++ y → e = f.bytes ∧ f.Proper := by
  induction h with
  | simpleString hline =>
    intro e x y hwire _
    cases hwire
    exact ⟨rfl, .simpleString _⟩
  | error hline =>
    intro e x y hwire _
    cases hwire
    exact ⟨rfl, .error _⟩
  | integer hline hz =>
    intro e x y hwire heq
    rw [Frame.value, hz, Option.getD_some] at hwire
    cases hwire with
    | integer hlit =>
      obtain ⟨rfl, -⟩ := hline.unique hlit (List.cons.inj heq).2
      exact ⟨rfl, .integer (representable_of_toInt hlit)⟩
  | nullBulk hline hz hneg =>
    intro e x y hwire heq
    cases hwire with
    | nullBulk hlit =>
      obtain ⟨rfl, -⟩ := hline.unique hlit (List.cons.inj heq).2
      exact ⟨rfl, .nullBulk hlit⟩
  | @bulk t b w z hline hz hlen hmax hw =>
    intro e x y hwire heq
    cases hwire with
    | @bulk t' _ hlit =>
      have heq : t ++ crlf ++ (b ++ w ++ x) = t' ++ crlf ++ (b ++ crlf ++ y) := by
        simpa [Frame.bytes] using heq
      obtain ⟨rfl, hrest⟩ := hline.unique hlit heq
      rw [List.append_assoc, List.append_assoc] at hrest
      obtain ⟨rfl, -⟩ := List.append_inj (List.append_cancel_left hrest) hw
      refine ⟨rfl, .bulk b (representable_of_toInt (i := Int64.ofInt z) ?_)⟩
      rw [hlit, hlen]
  | nullArray hline hz hneg =>
    intro e x y hwire heq
    cases hwire with
    | nullArray hlit =>
      obtain ⟨rfl, -⟩ := hline.unique hlit (List.cons.inj heq).2
      exact ⟨rfl, .nullArray hlit⟩
  | @array t z elems hline hz hlen hmax _ ih =>
    intro e x y hwire heq
    rw [Frame.value, valuesOf_eq] at hwire
    generalize hvals : elems.map Frame.value = vs at hwire
    cases hwire with
    | @array t' parts hlit hparts =>
      have heq : t ++ crlf ++ (elems.flatMap Frame.bytes ++ x) =
          t' ++ crlf ++ (parts.flatMap Prod.snd ++ y) := by
        simpa [Frame.bytes, bytesOf_eq] using heq
      obtain ⟨rfl, hrest⟩ := hline.unique hlit heq
      obtain ⟨hbytes, hall⟩ := proper_elems ih hvals.symm hparts hrest
      refine ⟨by rw [Frame.bytes, bytesOf_eq, hbytes], .array ?_ hall⟩
      refine representable_of_toInt (i := Int64.ofInt z) ?_
      have hcount := congrArg List.length hvals
      rw [List.length_map, List.length_map] at hcount
      rw [hlit, hlen, hcount]

/-- **What the decoder accepts is well formed exactly if** the frames it has read have none of
the three slips. -/
theorem decode_well_formed_iff {data : Bytes} {off off' : ℕ} {v : Value}
    (h : Protocol.decode data off = .ok (v, off')) :
    ∃ f : Frame, f.Taken ∧ f.value = v ∧ f.bytes = (data.drop off).take (off' - off) ∧
      (Wire v ((data.drop off).take (off' - off)) ↔ f.Proper) := by
  obtain ⟨_, ⟨f, hf, rfl, rfl⟩, hdata, rfl⟩ := consumes_decodeWith_frame _ data off v off' h
  have hbytes : (data.drop off).take (off + f.bytes.length - off) = f.bytes := by
    rw [Nat.add_sub_cancel_left, hdata, List.take_left]
  rw [hbytes]
  refine ⟨f, hf, rfl, rfl, fun hwire => ?_, hf.wire⟩
  exact (hf.proper f.bytes [] [] hwire rfl).2

/-- A command as clients send it. -/
theorem decode_well_formed_ping :
    Protocol.decode (ascii "*1\r\n$4\r\nPING\r\n") 0 =
      .ok (.array [.bulkString (some (ascii "PING"))], 14) ∧
    ∃ f : Frame, f.Taken ∧ f.value = .array [.bulkString (some (ascii "PING"))] ∧
      f.bytes = ((ascii "*1\r\n$4\r\nPING\r\n").drop 0).take (14 - 0) ∧
      (Wire (.array [.bulkString (some (ascii "PING"))])
        (((ascii "*1\r\n$4\r\nPING\r\n").drop 0).take (14 - 0)) ↔ f.Proper) := by
  have hdecode : Protocol.decode (ascii "*1\r\n$4\r\nPING\r\n") 0 =
      .ok (.array [.bulkString (some (ascii "PING"))], 14) := by decide +kernel
  exact ⟨hdecode, decode_well_formed_iff hdecode⟩

/-! ### The three slips -/

lemma wire_bulk_cases {v : Value} {t x : Bytes} (ht : 10 ∉ t)
    (h : Wire v (36 :: (t ++ crlf) ++ x)) :
    literal t = some (-1) ∧ x = [] ∨ ∃ b, literal t = some (b.length : ℤ) ∧ x = b ++ crlf := by
  generalize he : 36 :: (t ++ crlf) ++ x = e at h
  cases h with
  | @nullBulk t' hlit =>
    have heq : t ++ crlf ++ x = t' ++ crlf ++ [] := by simpa using he
    obtain ⟨rfl, rfl⟩ := line_unique ht (not_mem_of_literal hlit) heq
    exact .inl ⟨hlit, rfl⟩
  | @bulk t' b hlit =>
    have heq : t ++ crlf ++ x = t' ++ crlf ++ (b ++ crlf) := by simpa using he
    obtain ⟨rfl, rfl⟩ := line_unique ht (not_mem_of_literal hlit) heq
    exact .inr ⟨b, hlit, rfl⟩
  | _ => simp at he

/-- A bulk string with something else in the place of its CRLF, a null bulk string of length -7,
and a length of two to the 64 plus one are taken, and none of them is a wire form of anything. -/
theorem decode_accepts_malformed :
    (Protocol.decode (ascii "$1\r\naXY") 0 = .ok (.bulkString (some (ascii "a")), 7) ∧
      ∀ v, ¬ Wire v (ascii "$1\r\naXY")) ∧
    (Protocol.decode (ascii "$-7\r\n") 0 = .ok (.bulkString none, 5) ∧
      ∀ v, ¬ Wire v (ascii "$-7\r\n")) ∧
    (Protocol.decode (ascii "$18446744073709551617\r\na\r\n") 0 =
        .ok (.bulkString (some (ascii "a")), 26) ∧
      ∀ v, ¬ Wire v (ascii "$18446744073709551617\r\na\r\n")) := by
  refine ⟨⟨by decide +kernel, fun v h => ?_⟩, ⟨by decide +kernel, fun v h => ?_⟩,
    by decide +kernel, fun v h => ?_⟩
  · rcases wire_bulk_cases (t := ascii "1") (x := ascii "aXY") (by decide) h with
      ⟨hlit, -⟩ | ⟨b, -, hb⟩
    · exact absurd hlit (by decide +kernel)
    · have hend := congrArg List.getLast? hb
      have hfeed : crlf.getLast? = some 10 := rfl
      rw [List.getLast?_append, hfeed, Option.some_or] at hend
      exact absurd hend (by decide)
  · rcases wire_bulk_cases (t := ascii "-7") (x := []) (by decide) h with ⟨hlit, -⟩ | ⟨b, hlit, -⟩
    · exact absurd hlit (by decide +kernel)
    · have hval : literal (ascii "-7") = some (-7) := by decide +kernel
      rw [hval] at hlit
      have := Option.some.inj hlit
      omega
  · rcases wire_bulk_cases (t := ascii "18446744073709551617") (x := ascii "a\r\n") (by decide)
      h with
      ⟨hlit, -⟩ | ⟨b, hlit, hb⟩
    · exact absurd hlit (by decide +kernel)
    · have hval : literal (ascii "18446744073709551617") = some 18446744073709551617 := by
        decide +kernel
      rw [hval] at hlit
      have hlen := congrArg List.length hb
      have hshort : (ascii "a\r\n").length = 3 := by decide
      rw [hshort, List.length_append] at hlen
      have := Option.some.inj hlit
      omega

/-! ### The numbers on the lines -/

/-- `parseInt` refuses the bytes, or they are a numeral and it returns what they stand for. -/
def ReadExactly (b : Bytes) : Prop :=
  (∃ err, parseInt b = .error err) ∨ ∃ n, parseInt b = .ok n ∧ literal b = some n.toInt

/-- The bytes, if they are a numeral, stand for a machine integer. -/
def InRange (b : Bytes) : Prop := ∀ z, literal b = some z → -2 ^ 63 ≤ z ∧ z < 2 ^ 63

/-- The number the decoder makes of a line. -/
def parsed (t : Bytes) : ℤ :=
  match parseInt t with
  | .ok n => n.toInt
  | .error _ => 0

mutual

/-- The integers, lengths and counts of a frame: the text on the line, and the number the decoder
has acted on. -/
def Frame.numbers : Frame → List (Bytes × ℤ)
  | .simpleString _ | .error _ => []
  | .integer t | .nullBulk t | .nullArray t => [(t, parsed t)]
  | .bulk t b _ => [(t, b.length)]
  | .array t elems => (t, elems.length) :: Frame.numbersOf elems

def Frame.numbersOf : List Frame → List (Bytes × ℤ)
  | [] => []
  | f :: elems => f.numbers ++ Frame.numbersOf elems

end

lemma mem_numbersOf {p : Bytes × ℤ} {fs : List Frame} :
    p ∈ Frame.numbersOf fs ↔ ∃ f ∈ fs, p ∈ f.numbers := by
  induction fs with
  | nil => simp [Frame.numbersOf]
  | cons f fs ih => rw [Frame.numbersOf, List.mem_append, ih, List.exists_mem_cons_iff]

lemma inRange_iff {t : Bytes} {z : ℤ} (hz : literal t = some z) :
    InRange t ↔ (Int64.ofInt z).toInt = z := by
  constructor
  · intro h
    obtain ⟨hlo, hhi⟩ := h z hz
    exact Int64.toInt_ofInt_of_le hlo hhi
  · intro h z' hz'
    cases Option.some.inj (hz.symm.trans hz')
    rw [← h]
    exact ⟨(Int64.ofInt z).le_toInt, (Int64.ofInt z).toInt_lt⟩

lemma parseInt_of_literal {t : Bytes} {z : ℤ} (hz : literal t = some z) :
    parseInt t = .ok (Int64.ofInt z) := by
  rw [parseInt_eq, hz]

lemma readExactly_iff (b : Bytes) : ReadExactly b ↔ InRange b := by
  rcases hz : literal b with _ | z
  · have hfail : ∃ err, parseInt b = .error err := ⟨_, by rw [parseInt_eq, hz]⟩
    exact iff_of_true (.inl hfail) fun z hz' => absurd (hz.symm.trans hz') (by simp)
  · rw [inRange_iff hz, ReadExactly, parseInt_of_literal hz]
    simp [hz, eq_comm]

lemma Frame.Taken.numbers {f : Frame} (h : f.Taken) :
    ∀ p ∈ f.numbers, ∃ z, literal p.1 = some z ∧ (Int64.ofInt z).toInt = p.2 := by
  have hline : ∀ {t : Bytes} {z : ℤ}, literal t = some z → (Int64.ofInt z).toInt = parsed t := by
    intro t z hz
    rw [parsed, parseInt_of_literal hz]
  induction h with
  | simpleString hl => simp [Frame.numbers]
  | error hl => simp [Frame.numbers]
  | integer hl hz => exact List.forall_mem_singleton.mpr ⟨_, hz, hline hz⟩
  | nullBulk hl hz hneg => exact List.forall_mem_singleton.mpr ⟨_, hz, hline hz⟩
  | bulk hl hz hlen hmax hw => exact List.forall_mem_singleton.mpr ⟨_, hz, hlen⟩
  | nullArray hl hz hneg => exact List.forall_mem_singleton.mpr ⟨_, hz, hline hz⟩
  | array hl hz hlen hmax _ ih =>
    intro p hp
    rw [Frame.numbers, List.mem_cons, mem_numbersOf] at hp
    rcases hp with rfl | ⟨f, hf, hp⟩
    · exact ⟨_, hz, hlen⟩
    · exact ih f hf p hp

/-- **A number is read as it is written exactly if** it is in the range of the machine integers:
by `parseInt`, and wherever `Decode` acts on one. -/
theorem numbers_read_exactly_iff (b : Bytes) :
    (ReadExactly b ↔ InRange b) ∧
      ∀ (data : Bytes) (off off' : ℕ) (v : Value), Protocol.decode data off = .ok (v, off') →
        ∃ f : Frame, f.Taken ∧ f.value = v ∧ f.bytes = (data.drop off).take (off' - off) ∧
          ∀ p ∈ f.numbers, literal p.1 = some p.2 ↔ InRange p.1 := by
  refine ⟨readExactly_iff b, fun data off off' v h => ?_⟩
  obtain ⟨_, ⟨f, hf, rfl, rfl⟩, hdata, rfl⟩ := consumes_decodeWith_frame _ data off v off' h
  refine ⟨f, hf, rfl, ?_, fun p hp => ?_⟩
  · rw [Nat.add_sub_cancel_left, hdata, List.take_left]
  · obtain ⟨z, hz, hacted⟩ := hf.numbers p hp
    rw [inRange_iff hz, hacted, hz, Option.some.injEq, eq_comm]

/-- The counts of a command. -/
theorem numbers_read_exactly_ping :
    Protocol.decode (ascii "*1\r\n$4\r\nPING\r\n") 0 =
      .ok (.array [.bulkString (some (ascii "PING"))], 14) ∧
    ∃ f : Frame, f.Taken ∧ f.value = .array [.bulkString (some (ascii "PING"))] ∧
      f.bytes = ((ascii "*1\r\n$4\r\nPING\r\n").drop 0).take (14 - 0) ∧
      ∀ p ∈ f.numbers, literal p.1 = some p.2 ↔ InRange p.1 := by
  have hdecode : Protocol.decode (ascii "*1\r\n$4\r\nPING\r\n") 0 =
      .ok (.array [.bulkString (some (ascii "PING"))], 14) := by decide +kernel
  exact ⟨hdecode, (numbers_read_exactly_iff (ascii "4")).2 _ _ _ _ hdecode⟩

/-- Two to the 64 plus one reads as 1, so that a bulk string of that length ends after one byte,
and two to the 63 reads as a negative number. -/
theorem number_wraps_around :
    parseInt (ascii "18446744073709551617") = .ok 1 ∧
      literal (ascii "18446744073709551617") = some 18446744073709551617 ∧
      parseInt (ascii "9223372036854775808") = .ok (-9223372036854775808) ∧
      Protocol.decode (ascii "$18446744073709551617\r\na\r\n:5\r\n") 0 =
        .ok (.bulkString (some (ascii "a")), 26) := by
  decide +kernel

end Kyria.Protocol
