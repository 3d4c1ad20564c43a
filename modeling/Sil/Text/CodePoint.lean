/-!
Text as a sequence of Unicode code points. A surrogate is a code point like any other here, because
a string literal may hold one on its own; `String` cannot.
-/
namespace Sil

/-- A Unicode code point, the surrogates included. -/
abbrev CodePoint := Fin 0x110000

/-- The value of a string literal: any sequence of code points. -/
abbrev Text := List CodePoint

namespace CodePoint

def ofChar (c : Char) : CodePoint :=
  ⟨c.toNat, by
    have h := c.valid
    simp only [UInt32.isValidChar, Nat.isValidChar] at h
    have : c.toNat = c.val.toNat := rfl
    omega⟩

def ofNat? (n : Nat) : Option CodePoint :=
  if h : n < 0x110000 then some ⟨n, h⟩ else none

/-- The code point with number `n`, taken modulo their number. -/
def ofNat (n : Nat) : CodePoint := ⟨n % 0x110000, Nat.mod_lt n (by decide)⟩

def isHighSurrogate (c : CodePoint) : Bool := 0xD800 ≤ c.val && c.val < 0xDC00

def isLowSurrogate (c : CodePoint) : Bool := 0xDC00 ≤ c.val && c.val < 0xE000

def isSurrogate (c : CodePoint) : Bool := 0xD800 ≤ c.val && c.val < 0xE000

/-- The code point that a high and a low surrogate stand for together. -/
def join (high low : CodePoint) : CodePoint :=
  ofNat (0x10000 + (high.val - 0xD800) * 0x400 + (low.val - 0xDC00))

end CodePoint

namespace Text

def ofString (s : String) : Text := s.toList.map CodePoint.ofChar

instance : Coe String Text := ⟨ofString⟩

def toChars? : Text → Option (List Char)
  | [] => some []
  | c :: rest => if c.isSurrogate then none else (toChars? rest).map (Char.ofNat c.val :: ·)

def toString? (t : Text) : Option String := t.toChars?.map String.ofList

/-- The characters of a text: a surrogate pair is the character it encodes, and a surrogate on its
own the replacement character. -/
def toChars : Text → List Char
  | [] => []
  | [c] => [if c.isSurrogate then Char.ofNat 0xFFFD else Char.ofNat c.val]
  | c :: d :: rest =>
    if c.isHighSurrogate && d.isLowSurrogate then Char.ofNat (CodePoint.join c d).val ::
      toChars rest
    else (if c.isSurrogate then Char.ofNat 0xFFFD else Char.ofNat c.val) :: toChars (d :: rest)

def toString (t : Text) : String := String.ofList t.toChars

end Text
end Sil
