/-!
# Cutting text to a number of bytes

A text that is too long for its length field can be cut, but only between characters.

* `Text.clipChars room cs` — the longest initial part of `cs` whose UTF-8 form has at most `room`
  bytes.
* `Text.clip` — the same for strings; `clip_eq` ties the two together.
-/

set_option autoImplicit false
namespace WireGrammar
namespace Text

/-- The longest initial part of `cs` that takes at most `room` bytes in UTF-8. -/
def clipChars : Nat → List Char → List Char
  | _, [] => []
  | room, c :: cs => if c.utf8Size ≤ room then c :: clipChars (room - c.utf8Size) cs else []

theorem clipChars_isPrefix (room : Nat) (cs : List Char) : clipChars room cs <+: cs := by
  induction cs generalizing room with
  | nil => simp [clipChars]
  | cons c cs ih =>
    unfold clipChars
    split
    · exact List.prefix_cons_inj c |>.2 (ih _)
    · exact List.nil_prefix

/-- What is kept fits. -/
theorem utf8ByteSize_clipChars_le (room : Nat) (cs : List Char) :
    (String.ofList (clipChars room cs)).utf8ByteSize ≤ room := by
  induction cs generalizing room with
  | nil => simp [clipChars]
  | cons c cs ih =>
    unfold clipChars
    split
    · have h := ih (room - c.utf8Size)
      rw [String.ofList_cons, String.utf8ByteSize_append, String.utf8ByteSize_singleton]
      omega
    · simp

/-- Append to `acc` what fits of `cs` into `room` bytes. -/
def clipOnto (acc : String) : Nat → List Char → String
  | _, [] => acc
  | room, c :: cs =>
    if c.utf8Size ≤ room then clipOnto (acc.push c) (room - c.utf8Size) cs else acc

/-- The longest initial part of `s` that takes at most `room` bytes in UTF-8. -/
def clip (room : Nat) (s : String) : String :=
  clipOnto "" room s.toList

theorem clipOnto_eq (acc : String) (room : Nat) (cs : List Char) :
    clipOnto acc room cs = acc ++ String.ofList (clipChars room cs) := by
  induction cs generalizing acc room with
  | nil => simp [clipOnto, clipChars]
  | cons c cs ih =>
    unfold clipOnto clipChars
    split
    · rw [ih]
      apply String.toList_inj.mp
      simp
    · simp

theorem clip_eq (room : Nat) (s : String) :
    clip room s = String.ofList (clipChars room s.toList) := by
  simp [clip, clipOnto_eq]

end Text
end WireGrammar
