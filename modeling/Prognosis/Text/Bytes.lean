/-!
# Bytes as text

Paths, arguments and bodies are bytes, and need not be text.  `characters` reads the characters off them
and keeps the places where there is none; of the bytes of a text it gives just the text
(`characters_toByteArray`).  `lossy` is how such bytes are shown.
-/

namespace Prognosis.Text

-- A library may bring a second instance: this one counts in every module.
instance (priority := 2000) decidableEqBytes : DecidableEq ByteArray := ByteArray.instDecidableEq

/-- Whether a byte goes on with a character. -/
def goesOn (b : UInt8) : Bool := 0x80 ≤ b && b < 0xC0

/-- Whether two bytes begin a character of three or four bytes. -/
def beginsLong (a b : UInt8) : Bool :=
  if a = 0xE0 then 0xA0 ≤ b && b < 0xC0
  else if a = 0xED then 0x80 ≤ b && b < 0xA0
  else if a = 0xF0 then 0x90 ≤ b && b < 0xC0
  else if a = 0xF4 then 0x80 ≤ b && b < 0x90
  else 0xE0 ≤ a && a < 0xF4 && goesOn b

/-- The number of bytes, where no character stands, that are passed over at once: the longest piece
that some character begins with, and one byte at least. -/
def brokenSize (bytes : ByteArray) (i : Nat) : Nat :=
  let byte (k : Nat) : UInt8 := bytes.data[i + k]?.getD 0
  if beginsLong (byte 0) (byte 1) then if 0xF0 ≤ byte 0 && goesOn (byte 2) then 3 else 2 else 1

theorem brokenSize_pos (bytes : ByteArray) (i : Nat) : 0 < brokenSize bytes i := by
  unfold brokenSize
  dsimp only
  repeat' split
  all_goals omega

/-- The characters from a byte on, none for each piece that is no character. -/
def charactersFrom (bytes : ByteArray) (i : Nat) : List (Option Char) :=
  if i < bytes.size then
    match bytes.utf8DecodeChar? i with
    | some c => some c :: charactersFrom bytes (i + c.utf8Size)
    | none => none :: charactersFrom bytes (i + brokenSize bytes i)
  else []
termination_by bytes.size - i
decreasing_by
  · have := c.utf8Size_pos
    omega
  · have := brokenSize_pos bytes i
    omega

/-- Bytes as characters. -/
def characters (bytes : ByteArray) : List (Option Char) := charactersFrom bytes 0

/-- How bytes are shown: what is no character is replaced. -/
def lossy (bytes : ByteArray) : String :=
  String.ofList ((characters bytes).map (·.getD '\uFFFD'))

/-! ## Texts -/

theorem charactersFrom_utf8Encode (front : ByteArray) (cs : List Char) :
    charactersFrom (front ++ cs.utf8Encode) front.size = cs.map some := by
  induction cs generalizing front with
  | nil =>
    rw [charactersFrom, if_neg (by simp)]
    rfl
  | cons c cs ih =>
    have first : (front ++ (c :: cs).utf8Encode).utf8DecodeChar? front.size = some c := by
      rw [ByteArray.utf8DecodeChar?_eq_utf8DecodeChar?_extract, ByteArray.size_append,
        ByteArray.extract_append_eq_right rfl rfl, List.utf8DecodeChar?_utf8Encode_cons]
    have step : front.size + c.utf8Size = (front ++ [c].utf8Encode).size := by
      rw [ByteArray.size_append, List.utf8Encode_singleton, List.size_toByteArray,
        String.length_utf8EncodeChar]
    have inside : front.size < (front ++ (c :: cs).utf8Encode).size := by
      have := ByteArray.le_size_of_utf8DecodeChar?_eq_some first
      have := c.utf8Size_pos
      omega
    rw [charactersFrom, if_pos inside, first]
    dsimp only
    rw [List.utf8Encode_cons, ← ByteArray.append_assoc, step, ih, List.map_cons]

theorem characters_toByteArray (s : String) : characters s.toByteArray = s.toList.map some := by
  have whole := charactersFrom_utf8Encode .empty s.toList
  rwa [ByteArray.empty_append, String.utf8Encode_toList] at whole

theorem lossy_toByteArray (s : String) : lossy s.toByteArray = s := by
  have kept : (fun c : Option Char => c.getD '\uFFFD') ∘ some = id := rfl
  rw [lossy, characters_toByteArray, List.map_map, kept, List.map_id, String.ofList_toList]

end Prognosis.Text
