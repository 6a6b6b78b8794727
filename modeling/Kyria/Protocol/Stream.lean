import Kyria.Protocol.Resp

/-!
`Decode` on a stream that is still coming in: a value that has been read, and an input that has
been refused, stay so whatever comes in behind. Only the end of what is there is waited at.
-/

namespace Kyria.Protocol

open Kyria.Lib.Cursor Kyria.Binenc

lemma streams_readFull (n : ℕ) : Streams (readFull n) .eof := by
  intro data more off
  by_cases hshort : data.length - off < n
  · left
    simp only [readFull, Reader.mapError, slice, if_pos hshort, Except.mapError]
  · right
    have hlong : ¬ (data ++ more).length - off < n := by
      rw [List.length_append]
      omega
    have htake : ((data ++ more).drop off).take n = (data.drop off).take n := by
      by_cases hn : n = 0
      · simp [hn]
      · rw [List.drop_append_of_le_length (by omega),
          List.take_append_of_le_length (by rw [List.length_drop]; omega)]
    simp only [readFull, Reader.mapError, slice, if_neg hshort, if_neg hlong, htake]

lemma streams_readByte : Streams readByte .eof :=
  (streams_readFull 1).bind fun _ => .pure _

lemma streams_readSlice (delim : UInt8) : Streams (readSlice delim) .eof := by
  intro data more off
  -- the buffer over all of the input extends the one over what has come in
  obtain ⟨rest, hrest⟩ : ∃ rest, ((data ++ more).drop off).take bufferSize =
      (data.drop off).take bufferSize ++ rest := by
    rw [List.drop_append, List.take_append]
    exact ⟨_, rfl⟩
  set buffer := (data.drop off).take bufferSize with hbuffer
  by_cases hfound : buffer.findIdx (· = delim) < buffer.length
  · right
    have hidx : (buffer ++ rest).findIdx (· = delim) = buffer.findIdx (· = delim) := by
      rw [List.findIdx_append, if_pos hfound]
    have hlt : buffer.findIdx (· = delim) < (buffer ++ rest).length := by
      rw [List.length_append]
      omega
    simp only [readSlice, hrest, hidx, ← hbuffer, if_pos hfound, if_pos hlt]
    rw [List.take_append_of_le_length (by omega)]
  · by_cases hfull : buffer.length < bufferSize
    · left
      simp only [readSlice, ← hbuffer, if_neg hfound, if_pos hfull]
    · -- a full buffer has room for nothing else
      right
      have hlen : (buffer ++ rest).length ≤ bufferSize := by
        rw [← hrest]
        exact List.length_take_le _ _
      have hnil : rest = [] := by
        rw [List.length_append] at hlen
        exact List.length_eq_zero_iff.mp (by omega)
      simp only [readSlice, hrest, hnil, List.append_nil, ← hbuffer]

lemma streams_readLine : Streams readLine .eof :=
  (streams_readSlice 10).bind fun _ => .lift _

lemma streams_decodeBulk (n : Int64) : Streams (decodeBulk n) .eof := by
  unfold decodeBulk
  split_ifs
  · exact .pure _
  · exact .fail _
  · exact (streams_readFull _).bind fun _ => (streams_readFull _).bind fun _ => .pure _

section Elem

variable {elem : Reader DecodeError Value} (helem : Streams elem .eof)
include helem

lemma streams_decodeArray (n : Int64) : Streams (decodeArray elem n) .eof := by
  unfold decodeArray
  split_ifs
  · exact .pure _
  · exact .fail _
  · exact (Streams.loop (fun _ => helem.bind fun _ => .pure _) _ _).bind fun _ => .pure _

lemma streams_decodeBody : Streams (decodeBody elem) .eof := by
  refine streams_readByte.bind fun typeTag => streams_readLine.bind fun line => ?_
  unfold decodeSwitch
  split_ifs
  · exact .pure _
  · exact .pure _
  · exact (Streams.lift _).bind fun _ => .pure _
  · exact (Streams.lift _).bind streams_decodeBulk
  · exact (Streams.lift _).bind (streams_decodeArray helem)
  · exact .fail _

end Elem

lemma streams_decodeWith (fuel : ℕ) : Streams (decodeWith fuel) .eof := by
  induction fuel with
  | zero => exact .fail _
  | succ fuel ih => exact streams_decodeBody ih

/-- **`Decode` does not look ahead.** -/
lemma streams_decode : Streams Protocol.decode .eof := by
  intro data more off
  have hfuel : Protocol.decode data off =
      decodeWith ((data ++ more).length - off + 1) data off :=
    decodeWith_congr (by omega) (by rw [List.length_append]; omega)
  rw [hfuel]
  exact streams_decodeWith _ data more off

end Kyria.Protocol
