import BasicToC.Text.Utf8

/-!
# Reading plain bytes

A byte below 128 is a character of its own, whatever stands behind it.

* `decodeFrom_plain`: the characters of plain bytes.
* `toList_append`: the bytes of two byte strings.
-/

set_option autoImplicit false

namespace BasicToC.Text.Utf8

/-- The characters that plain bytes are. -/
def plainChars (bytes : List UInt8) : List Char := bytes.map fun byte => Char.ofNat byte.toNat

theorem decodeFrom_cons {byte : UInt8} (hplain : byte.toNat < 0x80) (offset : Nat)
    (rest : List UInt8) : decodeFrom offset (byte :: rest) =
      match decodeFrom (offset + 1) rest with
      | .error fault => .error fault
      | .ok text => .ok (Char.ofNat byte.toNat :: text) := by
  have hlead : lead? byte.toNat = some { bits := byte.toNat, following := 0 } := if_pos hplain
  rw [decodeFrom, hlead]
  rfl

/-- **Plain bytes in front are the characters in front.** -/
theorem decodeFrom_plain {front rest : List UInt8} (hplain : ∀ byte ∈ front, byte.toNat < 0x80)
    {offset : Nat} {text : List Char} (h : decodeFrom offset (front ++ rest) = .ok text) :
    ∃ more, text = plainChars front ++ more := by
  induction front generalizing offset text with
  | nil => exact ⟨text, rfl⟩
  | cons byte front ih =>
    rw [List.cons_append, decodeFrom_cons (hplain byte (List.mem_cons_self ..))] at h
    cases hrest : decodeFrom (offset + 1) (front ++ rest) with
    | error fault =>
      rw [hrest] at h
      cases h
    | ok read =>
      rw [hrest] at h
      cases h
      obtain ⟨more, rfl⟩ := ih (fun b hb => hplain b (List.mem_cons_of_mem _ hb)) hrest
      exact ⟨more, rfl⟩

/-! ## Byte strings -/

/-- The bytes that are left from a position on, behind those met before. The induction is on the
number of bytes left. -/
theorem toList_loop (bytes : ByteArray) (i : Nat) (met : List UInt8) :
    ByteArray.toList.loop bytes i met = met.reverse ++ bytes.data.toList.drop i := by
  have hsize : bytes.data.toList.length = bytes.size := rfl
  induction h : bytes.size - i generalizing i met with
  | zero =>
    rw [ByteArray.toList.loop, if_neg (by omega), List.drop_eq_nil_of_le (by omega),
      List.append_nil]
  | succ n ih =>
    have hi : i < bytes.data.toList.length := by omega
    have hget : bytes.get! i = bytes.data.toList[i] := by
      unfold ByteArray.get!
      exact getElem!_pos bytes.data i hi
    rw [ByteArray.toList.loop, if_pos (by omega), ih _ _ (by omega),
      List.drop_eq_getElem_cons hi, hget]
    simp

theorem toList_data (bytes : ByteArray) : bytes.toList = bytes.data.toList :=
  toList_loop bytes 0 []

theorem toList_append (first second : ByteArray) :
    (first ++ second).toList = first.toList ++ second.toList := by
  rw [toList_data, toList_data, toList_data, ByteArray.toList_data_append]

end BasicToC.Text.Utf8
