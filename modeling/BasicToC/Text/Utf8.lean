/-!
# Reading UTF-8

A byte string is read one character at a time. The first byte tells how many bytes follow and
which range the second one lies in; this keeps out overlong forms, surrogates and code points
past the last one.

* `Lead`: what the first byte of a character promises.
* `Fault`: why a byte string is not UTF-8, and which bytes are to blame.
* `decode`: the characters of a byte string.
-/

set_option autoImplicit false

namespace BasicToC.Text.Utf8

/-- What the first byte of a character promises: its own part of the code point, the number of
bytes that follow, and the bounds of the first of those. -/
structure Lead where
  bits : Nat
  following : Nat
  low : Nat := 0x80
  high : Nat := 0xBF
  deriving DecidableEq, Repr

/-- The promise of a first byte; none for a byte that starts no character. -/
def lead? (byte : Nat) : Option Lead :=
  if byte < 0x80 then some { bits := byte, following := 0 }
  else if byte < 0xC2 then none
  else if byte < 0xE0 then some { bits := byte - 0xC0, following := 1 }
  else if byte == 0xE0 then some { bits := 0, following := 2, low := 0xA0 }
  else if byte == 0xED then some { bits := 0xD, following := 2, high := 0x9F }
  else if byte < 0xF0 then some { bits := byte - 0xE0, following := 2 }
  else if byte == 0xF0 then some { bits := 0, following := 3, low := 0x90 }
  else if byte < 0xF4 then some { bits := byte - 0xF0, following := 3 }
  else if byte == 0xF4 then some { bits := 4, following := 3, high := 0x8F }
  else none

/-- The three ways in which bytes fail to spell a character. -/
inductive Reason where
  | badStart
  | badContinuation
  | cutShort
  deriving DecidableEq, Repr

/-- A reason together with the offset of the first byte to blame, its value, and how many bytes
are to blame. -/
structure Fault where
  reason : Reason
  offset : Nat
  byte : Nat
  count : Nat
  deriving DecidableEq, Repr

/-- The code point that is spelt by the bits so far and `following` more bytes, the number of bytes
of the character and the bytes behind it; or the reason why there is none and the number of bytes
read in vain. `seen` counts the bytes of the character before these. -/
def finish : (following low high bits seen : Nat) → List UInt8 →
    Except (Reason × Nat) (Nat × Nat × List UInt8)
  | 0, _, _, bits, seen, bytes => .ok (bits, seen, bytes)
  | _ + 1, _, _, _, seen, [] => .error (.cutShort, seen)
  | n + 1, low, high, bits, seen, byte :: bytes =>
    if low ≤ byte.toNat ∧ byte.toNat ≤ high then
      finish n 0x80 0xBF (bits * 64 + (byte.toNat - 0x80)) (seen + 1) bytes
    else .error (.badContinuation, seen)

theorem finish_length {following low high bits seen count : Nat} {bytes : List UInt8}
    {point : Nat} {rest : List UInt8}
    (h : finish following low high bits seen bytes = .ok (point, count, rest)) :
    rest.length ≤ bytes.length := by
  induction following generalizing low high bits seen bytes with
  | zero => simp only [finish, Except.ok.injEq, Prod.mk.injEq] at h; simp [h.2.2]
  | succ n ih =>
    cases bytes with
    | nil => simp [finish] at h
    | cons byte bytes =>
      simp only [finish] at h
      split at h
      · exact Nat.le_succ_of_le (ih h)
      · cases h

/-- The characters spelt by `bytes`, which stand at `offset` in the whole. -/
def decodeFrom (offset : Nat) (bytes : List UInt8) : Except Fault (List Char) :=
  match bytes with
  | [] => .ok []
  | byte :: following =>
    match lead? byte.toNat with
    | none => .error ⟨.badStart, offset, byte.toNat, 1⟩
    | some lead =>
      match _h : finish lead.following lead.low lead.high lead.bits 1 following with
      | .error (reason, count) => .error ⟨reason, offset, byte.toNat, count⟩
      | .ok (point, count, rest) =>
        match decodeFrom (offset + count) rest with
        | .error fault => .error fault
        | .ok text => .ok (Char.ofNat point :: text)
termination_by bytes.length
decreasing_by
  have := finish_length _h
  simp only [List.length_cons]
  omega

/-- The characters of a byte string, or the first fault in it. -/
def decode (bytes : List UInt8) : Except Fault (List Char) := decodeFrom 0 bytes

/-- The words for a reason. -/
def Reason.text : Reason → String
  | .badStart => "invalid start byte"
  | .badContinuation => "invalid continuation byte"
  | .cutShort => "unexpected end of data"

end BasicToC.Text.Utf8
