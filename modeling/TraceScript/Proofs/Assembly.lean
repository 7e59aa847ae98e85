import Mathlib
import TraceScript.Proofs.Pieces

namespace TraceScript

namespace Text

/-- What stands before the first character outside of a class is told by the whole text. -/
theorem append_inj_of_class (p : Char → Prop) {u v x y : List Char} (hu : ∀ c ∈ u, p c)
    (hv : ∀ c ∈ v, p c) (hx : ∀ c ∈ x.head?, ¬p c) (hy : ∀ c ∈ y.head?, ¬p c)
    (h : u ++ x = v ++ y) : u = v ∧ x = y := by
  induction u generalizing v with
  | nil =>
    cases v with
    | nil => exact ⟨rfl, h⟩
    | cons d v =>
      have hd : x.head? = some d := by
        rw [List.nil_append] at h
        rw [h]
        rfl
      exact absurd (hv d List.mem_cons_self) (hx d hd)
  | cons c u ih =>
    cases v with
    | nil =>
      have hc : y.head? = some c := by
        rw [List.nil_append] at h
        rw [← h]
        rfl
      exact absurd (hu c List.mem_cons_self) (hy c hc)
    | cons d v =>
      obtain ⟨rfl, hrest⟩ := List.cons.inj h
      obtain ⟨rfl, hxy⟩ := ih (fun c hc => hu c (List.mem_cons_of_mem _ hc))
        (fun c hc => hv c (List.mem_cons_of_mem _ hc)) hrest
      exact ⟨rfl, hxy⟩

theorem digitChar_inj {m n : Nat} (hm : m < 16) (hn : n < 16)
    (h : Nat.digitChar m = Nat.digitChar n) : m = n := by
  have hall : ∀ m < 16, ∀ n < 16, Nat.digitChar m = Nat.digitChar n → m = n := by decide
  exact hall m hm n hn h

theorem toDigits_inj {b m n : Nat} (hb : 1 < b) (hb' : b ≤ 16)
    (h : Nat.toDigits b m = Nat.toDigits b n) : m = n := by
  induction m using Nat.strongRecOn generalizing n with
  | ind m ih =>
    have hlast : ∀ k, k % b < 16 := fun k => Nat.lt_of_lt_of_le (Nat.mod_lt k (by omega)) hb'
    have hlong : ∀ (k : Nat) (c d : Char), Nat.toDigits b k ++ [c] ≠ [d] := by
      intro k c d heq
      have hlen := congrArg List.length heq
      have hpos := Nat.length_toDigits_pos (b := b) (n := k)
      simp only [List.length_append, List.length_cons, List.length_nil] at hlen
      omega
    rw [Nat.toDigits_eq_if hb, Nat.toDigits_eq_if hb (n := n)] at h
    split at h
    · split at h
      · exact digitChar_inj (by omega) (by omega) (List.cons.inj h).1
      · exact absurd h.symm (hlong _ _ _)
    · split at h
      · exact absurd h (hlong _ _ _)
      · obtain ⟨hfront, hback⟩ := List.append_inj' h rfl
        have hquot := ih (m / b) (Nat.div_lt_self (by omega) hb) hfront
        have hrem := digitChar_inj (hlast m) (hlast n) (List.cons.inj hback).1
        rw [← Nat.div_add_mod m b, hquot, hrem, Nat.div_add_mod]

/-- A character that stands for itself in an operand: no separator and no end of a line. -/
def IsPlain (c : Char) : Prop := c ≠ ',' ∧ c ≠ '\n' ∧ c ≠ '\r'

instance (c : Char) : Decidable (IsPlain c) := inferInstanceAs (Decidable (_ ∧ _))

theorem isPlain_toDigits {b n : Nat} (hb : 1 < b) (hb' : b ≤ 16) :
    ∀ c ∈ Nat.toDigits b n, IsPlain c := by
  have hdigit : ∀ k < 16, IsPlain (Nat.digitChar k) := by decide
  induction n using Nat.strongRecOn with
  | ind n ih =>
    rw [Nat.toDigits_eq_if hb]
    split
    · exact List.forall_mem_singleton.2 (hdigit n (by omega))
    · rw [List.forall_mem_append, List.forall_mem_singleton]
      refine ⟨ih (n / b) (Nat.div_lt_self (by omega) hb), hdigit _ ?_⟩
      exact Nat.lt_of_lt_of_le (Nat.mod_lt n (by omega)) hb'

theorem toList_int (i : Int) : (toString i).toList =
    if 0 ≤ i then Nat.toDigits 10 i.toNat else '-' :: Nat.toDigits 10 (-i).toNat := by
  rw [Int.toString_eq_repr, Int.repr_eq_if]
  split
  · exact Nat.toList_repr
  · rw [String.toList_append, Nat.toList_repr]
    rfl

theorem toList_signed (i : Int) : (signed i).toList =
    (if i < 0 then '-' else '+') :: Nat.toDigits 10 i.natAbs := by
  unfold signed
  split
  · have habs : (-i).toNat = i.natAbs := by omega
    rw [toList_int, if_neg (by omega), habs]
  · have habs : i.toNat = i.natAbs := by omega
    rw [String.toList_append, toList_int, if_pos (by omega), habs]
    rfl

theorem signed_inj {i j : Int} (h : signed i = signed j) : i = j := by
  have hlist := congrArg String.toList h
  rw [toList_signed, toList_signed] at hlist
  obtain ⟨hsign, hdigits⟩ := List.cons.inj hlist
  have habs := toDigits_inj (by decide) (by decide) hdigits
  split at hsign <;> split at hsign
  · omega
  · exact absurd hsign (by decide)
  · exact absurd hsign (by decide)
  · omega

theorem isPlain_int (i : Int) : ∀ c ∈ (toString i).toList, IsPlain c := by
  have hdigits : ∀ n, ∀ c ∈ Nat.toDigits 10 n, IsPlain c := fun n =>
    isPlain_toDigits (by decide) (by decide)
  rw [toList_int]
  split
  · exact hdigits _
  · exact List.forall_mem_cons.2 ⟨by decide, hdigits _⟩

theorem isPlain_signed (i : Int) : ∀ c ∈ (signed i).toList, IsPlain c := by
  rw [toList_signed]
  refine List.forall_mem_cons.2 ⟨?_, isPlain_toDigits (by decide) (by decide)⟩
  split <;> decide

end Text

namespace Listing

/-- What stands between the commas of an instruction. -/
inductive Field where
  | operand (right : Machine.Operand)
  | distance (off : Int16)
  | memory (base : Reg) (off : Int16)
  | constant (value : Int64)
  | descriptor (fd : Int32)

/-- What a field may be is told by the instruction, up to this. -/
inductive Shape where
  | operand
  | distance
  | memory
  | wide

namespace Field

def shape : Field → Shape
  | operand _ => .operand
  | distance _ => .distance
  | memory .. => .memory
  | constant _ | descriptor _ => .wide

def text : Field → String
  | operand (.reg r) => r.render
  | operand (.imm value) => toString value.toInt
  | distance off => Text.signed off.toInt
  | memory base off => s!"[{base.render}{Text.signed off.toInt}]"
  | constant value => s!"0x{Text.hex value.toUInt64.toNat}"
  | descriptor fd => s!"map {fd.toInt}"

theorem toList_register (r : Reg) : r.render.toList = 'r' :: Nat.toDigits 10 r.val := by
  rw [← Nat.toList_repr]
  exact String.toList_append ..

theorem toList_memory (base : Reg) (off : Int16) : (memory base off).text.toList =
    '[' :: 'r' :: (Nat.toDigits 10 base.val ++ ((Text.signed off.toInt).toList ++ [']'])) := by
  change ("[" ++ base.render ++ Text.signed off.toInt ++ "]").toList = _
  simp [toList_register]

theorem toList_constant (value : Int64) : (constant value).text.toList =
    '0' :: 'x' :: Nat.toDigits 16 value.toUInt64.toNat := by
  change ("0x" ++ String.ofList (Nat.toDigits 16 value.toUInt64.toNat)).toList = _
  simp

theorem toList_descriptor (fd : Int32) : (descriptor fd).text.toList =
    'm' :: 'a' :: 'p' :: ' ' :: (toString fd.toInt).toList :=
  String.toList_append ..

theorem isPlain_text (f : Field) : ∀ c ∈ f.text.toList, Text.IsPlain c := by
  have hdigits : ∀ {b : Nat} (n : Nat), 1 < b → b ≤ 16 → ∀ c ∈ Nat.toDigits b n, Text.IsPlain c :=
    fun n => Text.isPlain_toDigits
  cases f with
  | operand right =>
    cases right with
    | reg r =>
      change ∀ c ∈ r.render.toList, _
      rw [toList_register]
      exact List.forall_mem_cons.2 ⟨by decide, hdigits _ (by decide) (by decide)⟩
    | imm value => exact Text.isPlain_int _
  | distance off => exact Text.isPlain_signed _
  | memory base off =>
    rw [toList_memory]
    simp only [List.forall_mem_cons, List.forall_mem_append]
    exact ⟨by decide, by decide, hdigits _ (by decide) (by decide), Text.isPlain_signed _, by decide,
      by simp⟩
  | constant value =>
    rw [toList_constant]
    simp only [List.forall_mem_cons]
    exact ⟨by decide, by decide, hdigits _ (by decide) (by decide)⟩
  | descriptor fd =>
    rw [toList_descriptor]
    simp only [List.forall_mem_cons]
    exact ⟨by decide, by decide, by decide, by decide, Text.isPlain_int _⟩

theorem register_inj {r s : Reg} (h : r.render = s.render) : r = s := by
  have hlist := congrArg String.toList h
  rw [toList_register, toList_register] at hlist
  exact Fin.ext (Text.toDigits_inj (by decide) (by decide) (List.cons.inj hlist).2)

theorem register_ne_int (r : Reg) (i : Int) : r.render ≠ toString i := by
  intro h
  have hlist := congrArg String.toList h
  rw [toList_register, Text.toList_int] at hlist
  split at hlist
  · have hr : 'r' ∈ Nat.toDigits 10 i.toNat := hlist ▸ List.mem_cons_self
    exact absurd (Nat.isDigit_of_mem_toDigits (by decide) (by decide) hr) (by decide)
  · exact absurd (List.cons.inj hlist).1 (by decide)

theorem operand_inj {x y : Machine.Operand} (h : (operand x).text = (operand y).text) : x = y := by
  cases x with
  | reg r =>
    cases y with
    | reg s => exact congrArg _ (register_inj h)
    | imm value => exact (register_ne_int r _ h).elim
  | imm value =>
    cases y with
    | reg s => exact (register_ne_int s _ h.symm).elim
    | imm other => exact congrArg _ (Int32.toInt_inj.1 (Int.repr_injective h))

theorem memory_inj {r s : Reg} {x y : Int16} (h : (memory r x).text = (memory s y).text) :
    r = s ∧ x = y := by
  have hlist := congrArg String.toList h
  rw [toList_memory, toList_memory] at hlist
  have hdigits : ∀ n : Nat, ∀ c ∈ Nat.toDigits 10 n, c.isDigit := fun n c hc =>
    Nat.isDigit_of_mem_toDigits (by decide) (by decide) hc
  have hsign : ∀ i : Int, ∀ c ∈ ((Text.signed i).toList ++ [']']).head?, ¬c.isDigit := by
    intro i
    rw [Text.toList_signed]
    split <;> simp
  obtain ⟨hbase, hrest⟩ := Text.append_inj_of_class (·.isDigit = true) (hdigits _) (hdigits _)
    (hsign _) (hsign _) (List.cons.inj (List.cons.inj hlist).2).2
  have hoff := Text.signed_inj (String.toList_inj.1 (List.append_cancel_right hrest))
  exact ⟨Fin.ext (Text.toDigits_inj (by decide) (by decide) hbase), Int16.toInt_inj.1 hoff⟩

theorem constant_inj {v w : Int64} (h : (constant v).text = (constant w).text) : v = w := by
  have hlist := congrArg String.toList h
  rw [toList_constant, toList_constant] at hlist
  have hdigits := (List.cons.inj (List.cons.inj hlist).2).2
  have hnat := Text.toDigits_inj (by decide) (by decide) hdigits
  exact Function.LeftInverse.injective Int64.toInt64_toUInt64 (UInt64.toNat_inj.1 hnat)

theorem descriptor_inj {x y : Int32} (h : (descriptor x).text = (descriptor y).text) : x = y := by
  have hint : toString x.toInt = toString y.toInt := by
    have hlist := congrArg String.toList h
    rw [toList_descriptor, toList_descriptor] at hlist
    simp only [List.cons.injEq, true_and] at hlist
    exact String.toList_inj.1 hlist
  exact Int32.toInt_inj.1 (Int.repr_injective hint)

theorem constant_ne_descriptor (v : Int64) (fd : Int32) :
    (constant v).text ≠ (descriptor fd).text := by
  intro h
  have hlist := congrArg String.toList h
  rw [toList_constant, toList_descriptor] at hlist
  exact absurd (List.cons.inj hlist).1 (by decide)

theorem text_inj {f g : Field} (hs : f.shape = g.shape) (h : f.text = g.text) : f = g := by
  cases f with
  | operand x =>
    cases g <;> cases hs
    exact congrArg _ (operand_inj h)
  | distance x =>
    cases g <;> cases hs
    exact congrArg _ (Int16.toInt_inj.1 (Text.signed_inj h))
  | memory r x =>
    cases g <;> cases hs
    obtain ⟨rfl, rfl⟩ := memory_inj h
    rfl
  | constant v =>
    cases g with
    | constant w => exact congrArg _ (constant_inj h)
    | descriptor fd => exact (constant_ne_descriptor _ _ h).elim
    | operand | distance | memory => cases hs
  | descriptor fd =>
    cases g with
    | constant w => exact (constant_ne_descriptor _ _ h.symm).elim
    | descriptor fd' => exact congrArg _ (descriptor_inj h)
    | operand | distance | memory => cases hs

end Field

/-- The operands behind the name, if there are any. -/
def operands : List Field → String
  | [] => ""
  | fs => " " ++ ", ".intercalate (fs.map Field.text)

theorem intercalate_inj {fs gs : List Field} (hs : fs.map Field.shape = gs.map Field.shape)
    (h : [',', ' '].intercalate (fs.map fun f => f.text.toList) =
      [',', ' '].intercalate (gs.map fun f => f.text.toList)) : fs = gs := by
  induction fs generalizing gs with
  | nil => exact (List.map_eq_nil_iff.1 hs.symm).symm
  | cons f fs ih =>
    obtain ⟨g, gs, rfl, hshape, hshapes⟩ := List.map_eq_cons_iff.1 hs.symm
    cases fs with
    | nil =>
      obtain rfl : gs = [] := List.map_eq_nil_iff.1 hshapes
      rw [Field.text_inj hshape.symm (String.toList_inj.1 (by simpa using h))]
    | cons f' fs =>
      obtain ⟨g', gs, rfl, -, -⟩ := List.map_eq_cons_iff.1 hshapes
      simp only [List.map_cons, List.intercalate_cons_cons, List.append_assoc] at h ih
      have hcomma : ∀ f : Field, ∀ c ∈ f.text.toList, c ≠ ',' := fun f c hc =>
        (f.isPlain_text c hc).1
      obtain ⟨htext, hrest⟩ := Text.append_inj_of_class (· ≠ ',') (hcomma f) (hcomma g) (by simp)
        (by simp) h
      rw [Field.text_inj hshape.symm (String.toList_inj.1 htext),
        ih hshapes.symm (by simpa using hrest)]

theorem operands_inj {fs gs : List Field} (hs : fs.map Field.shape = gs.map Field.shape)
    (h : operands fs = operands gs) : fs = gs := by
  cases fs with
  | nil => exact (List.map_eq_nil_iff.1 hs.symm).symm
  | cons f fs =>
    obtain ⟨g, gs, rfl, -, -⟩ := List.map_eq_cons_iff.1 hs.symm
    apply intercalate_inj hs
    have hlist := congrArg String.toList h
    simpa [operands, String.toList_intercalate, Function.comp_def] using hlist

def Width.suffix : Width → String
  | double => "dw"
  | word => "w"
  | half => "h"
  | byte => "b"

def arithName : ArithOp → String
  | .add => "add"
  | .sub => "sub"
  | .mul => "mul"
  | .div => "div"
  | .mod => "mod"
  | .and => "and"
  | .or => "or"
  | .xor => "xor"
  | .lsh => "lsh"
  | .rsh => "rsh"

def testName : CompareOp → String
  | .eq => "jeq"
  | .ne => "jne"
  | .lt => "jslt"
  | .le => "jsle"
  | .gt => "jsgt"
  | .ge => "jsge"

/-- What the name of an instruction stands for. -/
inductive Mnemonic where
  | arith (op : ArithOp)
  | move
  | moveLow
  | load (width : Width)
  | store (width : Width)
  | storeImm (width : Width)
  | wide
  | jump
  | test (op : CompareOp)
  | call
  | exit

namespace Mnemonic

def name : Mnemonic → String
  | arith op => arithName op
  | move => "mov"
  | moveLow => "mov32"
  | load width => "ldx" ++ width.suffix
  | store width => "stx" ++ width.suffix
  | storeImm width => "st" ++ width.suffix
  | wide => "lddw"
  | jump => "ja"
  | test op => testName op
  | call => "call"
  | exit => "exit"

def all : List Mnemonic :=
  [.add, .sub, .mul, .div, .mod, .and, .or, .xor, .lsh, .rsh].map arith ++
    [move, moveLow, wide, jump, call, exit] ++
    [Width.double, .word, .half, .byte].flatMap (fun w => [load w, store w, storeImm w]) ++
    [.eq, .ne, .lt, .le, .gt, .ge].map test

/-- The shapes of the operands. -/
def shapes : Mnemonic → List Shape
  | arith _ | move | moveLow => [.operand, .operand]
  | load _ => [.operand, .memory]
  | store _ | storeImm _ => [.memory, .operand]
  | wide => [.operand, .wide]
  | jump => [.distance]
  | test _ => [.operand, .operand, .distance]
  | call => [.operand]
  | exit => []

theorem lookup_name (m : Mnemonic) : (all.map fun m => (m.name, m)).lookup m.name = some m := by
  cases m with
  | arith op => cases op <;> rfl
  | load width | store width | storeImm width => cases width <;> rfl
  | test op => cases op <;> rfl
  | move | moveLow | wide | jump | call | exit => rfl

theorem name_inj {m n : Mnemonic} (h : m.name = n.name) : m = n := by
  have hm := lookup_name m
  rw [h, lookup_name n] at hm
  exact (Option.some.inj hm).symm

theorem name_word (m : Mnemonic) : ∀ c ∈ m.name.toList, c ≠ ' ' ∧ Text.IsPlain c := by
  cases m with
  | arith op => cases op <;> simp [name, arithName, Text.IsPlain]
  | load width | store width | storeImm width =>
    cases width <;> simp [name, Width.suffix, Text.IsPlain]
  | test op => cases op <;> simp [name, testName, Text.IsPlain]
  | move | moveLow | wide | jump | call | exit => simp [name, Text.IsPlain]

end Mnemonic

namespace Entry

def mnemonic : Entry → Mnemonic
  | arith op .. => .arith op
  | move .. => .move
  | moveLow .. => .moveLow
  | load width .. => .load width
  | store width .. => .store width
  | storeImm width .. => .storeImm width
  | wide .. | map .. => .wide
  | jump _ => .jump
  | test op .. => .test op
  | call _ => .call
  | exit => .exit

def fields : Entry → List Field
  | arith _ dst right | move dst right => [.operand (.reg dst), .operand right]
  | moveLow dst src => [.operand (.reg dst), .operand (.reg src)]
  | load _ dst src off => [.operand (.reg dst), .memory src off]
  | store _ dst src off => [.memory dst off, .operand (.reg src)]
  | storeImm _ dst off imm => [.memory dst off, .operand (.imm imm)]
  | wide dst value => [.operand (.reg dst), .constant value]
  | map dst fd => [.operand (.reg dst), .descriptor fd]
  | jump off => [.distance off]
  | test _ dst right off => [.operand (.reg dst), .operand right, .distance off]
  | call function => [.operand (.imm function)]
  | exit => []

def text (i : Entry) : String := i.mnemonic.name ++ operands i.fields

theorem shape_fields (i : Entry) : i.fields.map Field.shape = i.mnemonic.shapes := by
  cases i <;> rfl

theorem eq_of_fields {i j : Entry} (hm : i.mnemonic = j.mnemonic) (hf : i.fields = j.fields) :
    i = j := by
  cases i <;> cases j <;> cases hm <;> cases hf <;> rfl

theorem text_inj {i j : Entry} (h : i.text = j.text) : i = j := by
  have hword : ∀ m : Mnemonic, ∀ c ∈ m.name.toList, c ≠ ' ' := fun m c hc => (m.name_word c hc).1
  have hblank : ∀ fs, ∀ c ∈ (operands fs).toList.head?, ¬c ≠ ' ' := by
    intro fs
    cases fs with
    | nil => simp [operands]
    | cons f fs => simp [operands]
  have hlist := congrArg String.toList h
  rw [text, text, String.toList_append, String.toList_append] at hlist
  obtain ⟨hname, hrest⟩ := Text.append_inj_of_class (· ≠ ' ') (hword _) (hword _) (hblank _)
    (hblank _) hlist
  have hm := Mnemonic.name_inj (String.toList_inj.1 hname)
  have hshapes : i.fields.map Field.shape = j.fields.map Field.shape := by
    rw [shape_fields, shape_fields, hm]
  exact eq_of_fields hm (operands_inj hshapes (String.toList_inj.1 hrest))

end Entry

end Listing

end TraceScript
