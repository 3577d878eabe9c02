/-
Lineage.Text.Utf8 — decoding of UTF-8, with an exact account of what is
wrong with bytes that are no UTF-8.

* `next` reads one character, or says why it cannot.
* `decodeAll` reads bytes that are complete; a fault names the position
  and number of the offending bytes.
* `decodeSome` reads bytes that more may follow: an unfinished character
  at the end is handed back.
* `encode` is the other direction; `encodeText` refuses texts with a
  surrogate, which has no bytes, and names the first run of them.
-/
import Lineage.Text.Quoted

namespace Lineage.Text.Utf8

/-- Why bytes are no UTF-8. -/
inductive Cause where
  /-- No character starts with this byte. -/
  | start
  /-- The byte after the offending ones does not continue the character. -/
  | continuation
  /-- The bytes end within a character. -/
  | ending
  deriving DecidableEq, Repr

/-- The wording of a cause. -/
def Cause.message : Cause → Text
  | .start => "invalid start byte"
  | .continuation => "invalid continuation byte"
  | .ending => "unexpected end of data"

/-- A fault: its cause, the offending bytes and the position of the
first of them. -/
structure Fault where
  cause : Cause
  position : Nat
  bytes : List UInt8
  deriving DecidableEq, Repr

/-- The wording of a fault: one byte is quoted, several are given by
their first and last position. -/
def Fault.message (f : Fault) : Text :=
  match f.bytes with
  | [b] =>
    "'utf-8' codec can't decode byte 0x" ++ ofChars (hexPadded 2 b.toNat) ++ " in position "
      ++ decimal f.position ++ ": " ++ f.cause.message
  | bs =>
    "'utf-8' codec can't decode bytes in position " ++ decimal f.position ++ "-"
      ++ decimal (f.position + bs.length - 1) ++ ": " ++ f.cause.message

/-- What the next bytes hold. -/
inductive Next where
  /-- The bytes are used up. -/
  | nothing
  /-- A character that `size` bytes encode. -/
  | char (c : Char) (size : Nat)
  /-- The bytes end within a character. -/
  | unfinished
  /-- The first `size` bytes cannot be read. -/
  | wrong (cause : Cause) (size : Nat)

/-- A byte that continues a character. -/
def isTail (b : UInt8) : Bool :=
  0x80 ≤ b && b ≤ 0xBF

/-- The second byte `b` may follow the first byte `a` of a character of
three or four bytes: no longer form than needed, no surrogate, nothing
beyond the last code point. -/
def maySecond (a b : UInt8) : Bool :=
  isTail b && !(a == 0xE0 && b < 0xA0) && !(a == 0xED && 0xA0 ≤ b)
    && !(a == 0xF0 && b < 0x90) && !(a == 0xF4 && 0x90 ≤ b)

/-- The code point of the bits of a first byte and of its tails. -/
def join (lead : Nat) (tails : List UInt8) : Char :=
  Char.ofNat (tails.foldl (fun n b => n * 64 + (b.toNat - 0x80)) lead)

/-- Reads one character. -/
def next : List UInt8 → Next
  | [] => .nothing
  | a :: rest =>
    if a < 0x80 then .char (Char.ofNat a.toNat) 1
    else if a < 0xC2 then .wrong .start 1
    else if a < 0xE0 then
      match rest with
      | [] => .unfinished
      | b :: _ => if isTail b then .char (join (a.toNat - 0xC0) [b]) 2 else .wrong .continuation 1
    else if a < 0xF0 then
      match rest with
      | [] => .unfinished
      | b :: rest =>
        if !maySecond a b then .wrong .continuation 1
        else
          match rest with
          | [] => .unfinished
          | c :: _ =>
            if isTail c then .char (join (a.toNat - 0xE0) [b, c]) 3 else .wrong .continuation 2
    else if a < 0xF5 then
      match rest with
      | [] => .unfinished
      | b :: rest =>
        if !maySecond a b then .wrong .continuation 1
        else
          match rest with
          | [] => .unfinished
          | c :: rest =>
            if !isTail c then .wrong .continuation 2
            else
              match rest with
              | [] => .unfinished
              | d :: _ =>
                if isTail d then .char (join (a.toNat - 0xF0) [b, c, d]) 4
                else .wrong .continuation 3
    else .wrong .start 1

/-- Reads from a position on until the bytes end or cannot be read: the
characters, and the rest with what is wrong there (`none`: nothing is
left).  `fuel` bounds the number of characters. -/
def run (fuel : Nat) (position : Nat) (bytes : List UInt8) :
    List Char × Option (Nat × List UInt8 × Next) :=
  match fuel with
  | 0 => ([], none)
  | fuel + 1 =>
    match next bytes with
    | .nothing => ([], none)
    | .char c size =>
      let (cs, stop) := run fuel (position + size) (bytes.drop size)
      (c :: cs, stop)
    | stop => ([], some (position, bytes, stop))

/-- What decoding leaves: a fault, or the bytes of a character that is
not finished yet. -/
inductive Stop where
  | fault (f : Fault)
  | pending (bytes : List UInt8)

/-- The bytes are the first two of a surrogate. -/
def startsSurrogate : List UInt8 → Bool
  | [a, b] => a == 0xED && 0xA0 ≤ b && b ≤ 0xBF
  | _ => false

/-- Reads bytes that more may follow.  The first two bytes of a surrogate
count as unfinished: they are only found wrong with the third. -/
def decodeSome (bytes : List UInt8) : List Char × Stop :=
  match run (bytes.length + 1) 0 bytes with
  | (cs, none) => (cs, .pending [])
  | (cs, some (position, rest, .wrong cause size)) =>
    if startsSurrogate rest then (cs, .pending rest)
    else (cs, .fault ⟨cause, position, rest.take size⟩)
  | (cs, some (_, rest, _)) => (cs, .pending rest)

/-- Reads complete bytes. -/
def decodeAll (bytes : List UInt8) : Except Fault (List Char) :=
  match run (bytes.length + 1) 0 bytes with
  | (cs, none) => .ok cs
  | (_, some (position, rest, .wrong cause size)) => .error ⟨cause, position, rest.take size⟩
  | (_, some (position, rest, _)) => .error ⟨.ending, position, rest⟩

/-- The bytes of a character. -/
def encodeChar (c : Char) : List UInt8 :=
  let n := c.toNat
  let tail (k : Nat) : UInt8 := UInt8.ofNat (0x80 + n / k % 64)
  if n < 0x80 then [UInt8.ofNat n]
  else if n < 0x800 then [UInt8.ofNat (0xC0 + n / 64), tail 1]
  else if n < 0x10000 then [UInt8.ofNat (0xE0 + n / 4096), tail 64, tail 1]
  else [UInt8.ofNat (0xF0 + n / 262144), tail 4096, tail 64, tail 1]

/-- The bytes of a text. -/
def encode (cs : List Char) : List UInt8 :=
  cs.flatMap encodeChar

/-- Surrogates that cannot be written: the first of them, its position
and how many follow one another. -/
structure Unwritable where
  first : CodePoint
  position : Nat
  count : Nat
  deriving DecidableEq, Repr

/-- The wording of surrogates that cannot be written. -/
def Unwritable.message (u : Unwritable) : Text :=
  let place : Text :=
    if u.count = 1 then
      "character '" ++ ofChars (codeEscape u.first.code) ++ "' in position " ++ decimal u.position
    else
      "characters in position " ++ decimal u.position ++ "-" ++ decimal (u.position + u.count - 1)
  "'utf-8' codec can't encode " ++ place ++ ": surrogates not allowed"

/-- The first surrogates of a text that do not stand for anything. -/
def unwritable? (stands : CodePoint → Bool) (t : Text) : Option Unwritable :=
  let before := t.takeWhile fun p => !p.isSurrogate || stands p
  match t.drop before.length with
  | [] => none
  | p :: rest => some ⟨p, before.length, (rest.takeWhile CodePoint.isSurrogate).length + 1⟩

/-- The bytes of a text without surrogates. -/
def encodeText (t : Text) : Except Unwritable (List UInt8) :=
  match t.chars? with
  | some cs => .ok (encode cs)
  | none => .error ((unwritable? (fun _ => false) t).getD ⟨default, 0, 0⟩)

/-- A text of characters has the bytes of its characters. -/
theorem encodeText_ofChars (cs : List Char) : encodeText (ofChars cs) = .ok (encode cs) := by
  simp [encodeText]

/-- A byte below 128 is a character of its own. -/
theorem next_ascii {a : UInt8} (h : a < 0x80) (rest : List UInt8) :
    next (a :: rest) = .char (Char.ofNat a.toNat) 1 := by
  simp [next, h]

end Lineage.Text.Utf8
