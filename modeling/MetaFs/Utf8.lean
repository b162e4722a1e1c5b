/-!
UTF-8 on lists of bytes. Names in the tree need not be text, so reading says where a byte string
stops being text, and a lossy reading puts the replacement character there.
-/

namespace MetaFs.Utf8

def encode (text : List Char) : List UInt8 :=
  text.flatMap String.utf8EncodeChar

/-- The bytes before `offset` are text; the next `length` bytes start no character, or, when
`length` is `none`, the input ends inside a character. -/
structure Malformed where
  offset : Nat
  length : Option Nat
deriving DecidableEq, Repr

def Malformed.message (e : Malformed) : String :=
  match e.length with
  | some n => s!"invalid utf-8 sequence of {n} bytes from index {e.offset}"
  | none => s!"incomplete utf-8 byte sequence from index {e.offset}"

def Malformed.shift (n : Nat) (e : Malformed) : Malformed :=
  { e with offset := n + e.offset }

/-- What a byte string starts with; widths count bytes. -/
inductive Front where
  | character (c : Char) (width : Nat)
  | invalid (width : Nat)
  | incomplete
deriving DecidableEq, Repr

/-- The number of bytes of a character by its first byte, zero for a byte that starts none. -/
def width (b : UInt8) : Nat :=
  if b < 0x80 then 1
  else if b < 0xC2 then 0
  else if b < 0xE0 then 2
  else if b < 0xF0 then 3
  else if b < 0xF5 then 4
  else 0

/-- The second byte is limited after four first bytes: no overlong form, no surrogate, nothing
above U+10FFFF. -/
def secondFits (first second : UInt8) : Bool :=
  let low := if first = 0xE0 then 0xA0 else if first = 0xF0 then 0x90 else 0x80
  let high := if first = 0xED then 0x9F else if first = 0xF4 then 0x8F else 0xBF
  low ≤ second && second ≤ high

def isContinuation (b : UInt8) : Bool :=
  0x80 ≤ b && b ≤ 0xBF

def payload (b : UInt8) : Nat :=
  b.toNat % 64

def front (first : UInt8) (rest : List UInt8) : Front :=
  match width first with
  | 1 => .character (Char.ofNat first.toNat) 1
  | 2 =>
    match rest with
    | [] => .incomplete
    | b :: _ =>
      if secondFits first b then
        .character (Char.ofNat (first.toNat % 32 * 64 + payload b)) 2
      else .invalid 1
  | 3 =>
    match rest with
    | [] => .incomplete
    | b :: rest =>
      if secondFits first b then
        match rest with
        | [] => .incomplete
        | c :: _ =>
          if isContinuation c then
            .character (Char.ofNat ((first.toNat % 16 * 64 + payload b) * 64 + payload c)) 3
          else .invalid 2
      else .invalid 1
  | 4 =>
    match rest with
    | [] => .incomplete
    | b :: rest =>
      if secondFits first b then
        match rest with
        | [] => .incomplete
        | c :: rest =>
          if isContinuation c then
            match rest with
            | [] => .incomplete
            | d :: _ =>
              if isContinuation d then
                .character (Char.ofNat
                  (((first.toNat % 8 * 64 + payload b) * 64 + payload c) * 64 + payload d)) 4
              else .invalid 3
          else .invalid 2
      else .invalid 1
  | _ => .invalid 1

def decode : List UInt8 → Except Malformed (List Char)
  | [] => .ok []
  | b :: bs =>
    match front b bs with
    | .character c w =>
      match decode (bs.drop (w - 1)) with
      | .ok cs => .ok (c :: cs)
      | .error e => .error (e.shift w)
    | .invalid w => .error ⟨0, some w⟩
    | .incomplete => .error ⟨0, none⟩
termination_by bytes => bytes.length
decreasing_by simp only [List.length_drop, List.length_cons]; omega

/-- Every run of bytes that is no text becomes one U+FFFD. -/
def decodeLossy : List UInt8 → List Char
  | [] => []
  | b :: bs =>
    match front b bs with
    | .character c w => c :: decodeLossy (bs.drop (w - 1))
    | .invalid w => '\uFFFD' :: decodeLossy (bs.drop (w - 1))
    | .incomplete => ['\uFFFD']
termination_by bytes => bytes.length
decreasing_by all_goals simp only [List.length_drop, List.length_cons]; omega

end MetaFs.Utf8
