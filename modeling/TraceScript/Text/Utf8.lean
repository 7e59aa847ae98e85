/-!
Bytes of text: the UTF-8 form of a string, and a reading of arbitrary bytes that puts the
replacement character in place of each longest piece that begins no character.
-/
namespace TraceScript.Text

def utf8 (s : String) : List UInt8 := s.toList.flatMap String.utf8EncodeChar

/-- The ranges in which the bytes after a first byte must lie, if it begins a longer character. -/
def followers (b : UInt8) : Option (List (UInt8 × UInt8)) :=
  if 0xc2 ≤ b ∧ b ≤ 0xdf then some [(0x80, 0xbf)]
  else if b = 0xe0 then some [(0xa0, 0xbf), (0x80, 0xbf)]
  else if b = 0xed then some [(0x80, 0x9f), (0x80, 0xbf)]
  else if 0xe1 ≤ b ∧ b ≤ 0xef then some [(0x80, 0xbf), (0x80, 0xbf)]
  else if b = 0xf0 then some [(0x90, 0xbf), (0x80, 0xbf), (0x80, 0xbf)]
  else if 0xf1 ≤ b ∧ b ≤ 0xf3 then some [(0x80, 0xbf), (0x80, 0xbf), (0x80, 0xbf)]
  else if b = 0xf4 then some [(0x80, 0x8f), (0x80, 0xbf), (0x80, 0xbf)]
  else none

/-- The bytes that lie in the ranges, one for one, as far as they do, and what is left. -/
def matching : List (UInt8 × UInt8) → List UInt8 → List UInt8 × List UInt8
  | r :: rs, b :: bs =>
    if r.1 ≤ b ∧ b ≤ r.2 then
      let (taken, rest) := matching rs bs
      (b :: taken, rest)
    else ([], b :: bs)
  | _, bs => ([], bs)

theorem matching_length (rs : List (UInt8 × UInt8)) (bs : List UInt8) :
    (matching rs bs).2.length ≤ bs.length := by
  fun_induction matching rs bs <;> grind

theorem matching_lt (b : UInt8) (rs : List (UInt8 × UInt8)) (bs : List UInt8) :
    (matching rs bs).2.length < (b :: bs).length :=
  Nat.lt_succ_of_le (matching_length rs bs)

/-- The character of a first byte and its followers: six bits from each follower. -/
def assemble (first : UInt8) (rest : List UInt8) : Char :=
  let lead := first.toNat % (1 <<< (6 - rest.length))
  Char.ofNat (rest.foldl (fun n b => n * 64 + b.toNat % 64) lead)

def decodeLossy : List UInt8 → List Char
  | [] => []
  | b :: bs =>
    if b < 0x80 then Char.ofNat b.toNat :: decodeLossy bs
    else
      match followers b with
      | none => '�' :: decodeLossy bs
      | some rs =>
        let m := matching rs bs
        if m.1.length = rs.length then assemble b m.1 :: decodeLossy m.2
        else '�' :: decodeLossy m.2
termination_by bs => bs.length
decreasing_by
  · exact Nat.lt_add_one bs.length
  · exact Nat.lt_add_one bs.length
  · exact matching_lt b rs bs
  · exact matching_lt b rs bs

def ofUtf8Lossy (bs : List UInt8) : String := String.ofList (decodeLossy bs)

end TraceScript.Text
