import TraceScript.Proofs.Control
import TraceScript.Proofs.Listed

namespace TraceScript

open TraceScript.Flow

namespace Emit

open Listing (Entry)

/-- The scope of whole instructions. The distance of a jump to a block is still open. -/
def Scope.whole : Scope where
  group ss := ∃ is : List Entry, ss = is.flatMap Entry.slots
  jump s _ := ∃ i : Int16 → Entry, ∀ off, (i off).slots = [{ s with off := off }]
  error _ := True

theorem entries_straight {W : UInt8 → Prop} {ss : List Slot} (h : ∀ s ∈ ss, s.Straight W) :
    ∃ is : List Entry, ss = is.flatMap Entry.slots := by
  induction ss with
  | nil => exact ⟨[], rfl⟩
  | cons s ss ih =>
    obtain ⟨⟨i, hi, -⟩, hrest⟩ := List.forall_mem_cons.1 h
    obtain ⟨is, his⟩ := ih hrest
    exact ⟨i :: is, by rw [List.flatMap_cons, hi, ← his]; rfl⟩

theorem Piece.entries {ids : List MapId} {W : UInt8 → Prop} {ss : List Slot} (h : Piece ids W ss) :
    ∃ is : List Entry, ss = is.flatMap Entry.slots := by
  cases h with
  | straight hs => exact entries_straight (List.forall_mem_singleton.2 hs)
  | @wide d value _ => exact ⟨[.wide d value], rfl⟩
  | @map d id _ _ => exact ⟨[.map d (Int32.ofInt id.fd)], rfl⟩
  | skip htest _ hall =>
    obtain ⟨op, dst, right, off, htest⟩ := htest
    obtain ⟨is, his⟩ := entries_straight hall
    exact ⟨.test op dst right off :: is, by rw [List.flatMap_cons, htest, ← his]; rfl⟩
  | @choose s d htest _ _ =>
    obtain ⟨op, dst, right, off, htest⟩ := htest
    refine ⟨[.test op dst right off, .move d (.imm 0), .jump 1, .move d (.imm 1)], ?_⟩
    rw [List.flatMap_cons, htest]
    rfl

theorem written_whole (a : Allocation) (i : Instruction) :
    Written .whole (fun _ => True) fun _ => instruction a i := by
  have hk : Scope.whole.Admits a i.maps fun _ => True :=
    ⟨usable_all a, fun _ hp => hp.entries, fun _ => trivial⟩
  refine written_instruction hk ⟨fun _ _ _ => trivial, fun _ _ _ _ _ _ => trivial,
    fun _ _ => ⟨⟨.jump, fun _ => rfl⟩, fun c => ⟨.test .ne c (.imm 0), fun _ => rfl⟩⟩,
    fun _ => ⟨[.exit], rfl⟩⟩ fun _ hx => hx

theorem Lies.take_slots {code : Array Slot} {starts : Array Nat} {index : Nat} {ss : List Slot}
    {ds : List Draft} (h : Lies code starts index (ss.map draft ++ ds)) :
    (code.toList.drop index).take ss.length = ss := by
  apply List.ext_getElem?
  intro k
  rw [List.getElem?_take]
  split
  · rename_i hk
    obtain ⟨s, hs, hget⟩ := h k (draft ss[k]) (by simp [List.getElem?_append_left, hk])
    rw [List.getElem?_drop, Array.getElem?_toList, hget, List.getElem?_eq_getElem hk]
    exact congrArg some (Except.ok.inj hs).symm
  · rename_i hk
    exact (List.getElem?_eq_none (Nat.le_of_not_lt hk)).symm

/-- Once the distances are filled in, drafts of whole instructions are the slots of instructions. -/
theorem Row.entries {ds : List Draft} (h : Row .whole ds) {code : Array Slot} {starts : Array Nat}
    {index : Nat} (hl : Lies code starts index ds) :
    ∃ is : List Entry, (code.toList.drop index).take ds.length = is.flatMap Entry.slots := by
  induction h generalizing index with
  | nil => exact ⟨[], rfl⟩
  | group hg _ ih =>
    obtain ⟨is, rfl⟩ := hg
    have hright := hl.right
    rw [List.length_map] at hright
    obtain ⟨js, hjs⟩ := ih hright
    refine ⟨is ++ js, ?_⟩
    rw [List.length_append, List.length_map, List.take_add, List.drop_drop, hjs, hl.take_slots,
      List.flatMap_append]
  | jump hj _ ih =>
    obtain ⟨i, hi⟩ := hj
    obtain ⟨_, s, -, hs, -, heq⟩ := hl.goto
    obtain ⟨is, his⟩ := ih hl.tail
    refine ⟨i s.off :: is, ?_⟩
    obtain ⟨hlt, hs⟩ := Array.getElem?_eq_some_iff.1 hs
    rw [List.flatMap_cons, hi, ← heq, ← his, List.length_cons,
      List.drop_eq_getElem_cons (by simpa using hlt), Array.getElem_toList, hs]
    rfl

end Emit

namespace Slot

/-- Both registers fit the half of a byte that they get. -/
def Narrow (s : Slot) : Prop := s.dst.toNat < 16 ∧ s.src.toNat < 16

theorem narrow_ofRegs (code : UInt8) (dst src : Reg) (off : Int16) (imm : Int32) :
    (ofRegs code dst src off imm).Narrow := by
  have hsmall : ∀ r : Reg, r.number.toNat < 16 := by decide
  exact ⟨hsmall dst, hsmall src⟩

theorem length_encode (s : Slot) : s.encode.length = 8 := by
  simp [encode]

theorem ofNat_bytes_inj {count m n : Nat} (hm : m < 256 ^ count) (hn : n < 256 ^ count)
    (h : Bytes.ofNat count m = Bytes.ofNat count n) : m = n := by
  have hvalue := congrArg Bytes.toNat h
  rwa [Bytes.toNat_ofNat, Bytes.toNat_ofNat, Nat.mod_eq_of_lt hm, Nat.mod_eq_of_lt hn] at hvalue

theorem encode_inj {s t : Slot} (hs : s.Narrow) (ht : t.Narrow) (h : s.encode = t.encode) :
    s = t := by
  obtain ⟨hfront, himm⟩ := List.append_inj' h (by simp)
  obtain ⟨hhead, hoff⟩ := List.append_inj' hfront (by simp)
  simp only [List.cons.injEq, and_true] at hhead
  obtain ⟨hcode, hregs⟩ := hhead
  have hnat := congrArg UInt8.toNat hregs
  simp only [UInt8.toNat_add, UInt8.toNat_mul, UInt8.toNat_mod, UInt8.reduceToNat] at hnat
  obtain ⟨hs, hs'⟩ := hs
  obtain ⟨ht, ht'⟩ := ht
  have hdst : s.dst = t.dst := UInt8.toNat_inj.1 (by omega)
  have hsrc : s.src = t.src := UInt8.toNat_inj.1 (by omega)
  have hoff' : s.off = t.off := Function.LeftInverse.injective Int16.toInt16_toUInt16
    (UInt16.toNat_inj.1 (ofNat_bytes_inj s.off.toUInt16.toNat_lt t.off.toUInt16.toNat_lt hoff))
  have himm' : s.imm = t.imm := Function.LeftInverse.injective Int32.toInt32_toUInt32
    (UInt32.toNat_inj.1 (ofNat_bytes_inj s.imm.toUInt32.toNat_lt t.imm.toUInt32.toNat_lt himm))
  cases s
  cases t
  exact Slot.mk.injEq .. ▸ ⟨hcode, hdst, hsrc, hoff', himm'⟩

theorem flatMap_encode_inj {ss ts : List Slot} (hss : ∀ s ∈ ss, s.Narrow) (hts : ∀ t ∈ ts, t.Narrow)
    (h : ss.flatMap encode = ts.flatMap encode) : ss = ts := by
  induction ss generalizing ts with
  | nil =>
    cases ts with
    | nil => rfl
    | cons t ts => simp [encode] at h
  | cons s ss ih =>
    cases ts with
    | nil => simp [encode] at h
    | cons t ts =>
      obtain ⟨hs, hss⟩ := List.forall_mem_cons.1 hss
      obtain ⟨ht, hts⟩ := List.forall_mem_cons.1 hts
      obtain ⟨hhead, htail⟩ := List.append_inj h (by rw [length_encode, length_encode])
      rw [encode_inj hs ht hhead, ih hss hts htail]

theorem length_flatMap_encode (ss : List Slot) : (ss.flatMap encode).length = 8 * ss.length := by
  rw [List.length_flatMap, funext length_encode, List.map_const', List.sum_replicate_nat]
  exact Nat.mul_comm ..

end Slot

namespace Listing

namespace Entry

theorem narrow_slots (i : Entry) : ∀ s ∈ i.slots, s.Narrow := by
  have hupper : ∀ value : Int64, (Slot.upperHalf value).Narrow := fun _ =>
    Slot.narrow_ofRegs 0 0 0 0 _
  have hmap : ∀ (dst : Reg) (fd : Int32),
      (Slot.mk Slot.wideCode dst.number Slot.mapMark 0 fd).Narrow := fun dst fd =>
    Slot.narrow_ofRegs Slot.wideCode dst 1 0 fd
  cases i with
  | arith op dst right | move dst right | test op dst right off =>
    cases right <;> exact List.forall_mem_singleton.2 (Slot.narrow_ofRegs ..)
  | moveLow | load | store | storeImm | jump | call | exit =>
    exact List.forall_mem_singleton.2 (Slot.narrow_ofRegs ..)
  | wide dst value =>
    exact List.forall_mem_cons.2 ⟨Slot.narrow_ofRegs .., List.forall_mem_singleton.2 (hupper value)⟩
  | map dst fd =>
    exact List.forall_mem_cons.2 ⟨hmap dst fd, List.forall_mem_singleton.2 (hupper _)⟩

theorem slots_cases (i : Entry) : (∃ s, i.slots = [s] ∧ s.isWide = false) ∨
    ∃ s upper, i.slots = [s, upper] ∧ s.isWide = true ∧ upper.isWide = false := by
  cases i with
  | arith op dst right =>
    cases right with
    | reg src => exact .inl ⟨_, rfl, (shownBy_aluReg dst src op).narrow⟩
    | imm imm => exact .inl ⟨_, rfl, (shownBy_aluImm dst imm op).narrow⟩
  | move dst right => cases right <;> exact .inl ⟨_, rfl, rfl⟩
  | moveLow | jump | call | exit => exact .inl ⟨_, rfl, rfl⟩
  | load width dst src off => exact .inl ⟨_, rfl, (shownBy_load dst src off width).narrow⟩
  | store width dst src off => exact .inl ⟨_, rfl, (shownBy_store dst src off width).narrow⟩
  | storeImm width dst off imm => exact .inl ⟨_, rfl, (shownBy_storeImm dst off imm width).narrow⟩
  | test op dst right off =>
    cases right with
    | reg src => exact .inl ⟨_, rfl, (shownBy_jumpReg dst src off op).narrow⟩
    | imm imm => exact .inl ⟨_, rfl, (shownBy_jumpImm dst off imm op).narrow⟩
  | wide | map => exact .inr ⟨_, _, rfl, rfl, rfl⟩

end Entry

theorem le_of_mem_placed {is : List Entry} {index : Nat} {p : Nat × Entry}
    (h : p ∈ placed index is) : index ≤ p.1 := by
  induction is generalizing index with
  | nil => cases h
  | cons i is ih =>
    rcases List.mem_cons.1 h with rfl | h
    · exact Nat.le_refl _
    · exact Nat.le_trans (Nat.le_add_right ..) (ih h)

open Bytecode (Starts)

/-- Behind a slot that is not wide, instructions begin at all slots but the second halves of
constants. -/
theorem mem_placed_iff {code : Array Slot} {is : List Entry} {before : List Slot}
    (hcode : code.toList = before ++ is.flatMap Entry.slots) (hstart : Starts code before.length)
    {k : Nat} (hk : before.length ≤ k) :
    (∃ i, (k, i) ∈ placed before.length is) ↔ k < code.size ∧ Starts code k := by
  induction is generalizing before with
  | nil =>
    have hsize : code.size = before.length := by
      rw [← Array.length_toList, hcode, List.flatMap_nil, List.append_nil]
    simp only [placed, List.not_mem_nil, exists_false, false_iff, hsize]
    omega
  | cons i is ih =>
    have hsize : code.size = before.length + (i.slots.length + (is.flatMap Entry.slots).length) := by
      rw [← Array.length_toList, hcode, List.flatMap_cons, List.length_append, List.length_append]
    have hslot : ∀ (j : Nat) (s : Slot), i.slots[j]? = some s →
        code[before.length + j]? = some s := by
      intro j s hs
      have hj := (List.getElem?_eq_some_iff.1 hs).1
      rw [← Array.getElem?_toList, hcode, List.flatMap_cons,
        List.getElem?_append_right (Nat.le_add_right ..), Nat.add_sub_cancel_left,
        List.getElem?_append_left hj, hs]
    -- The instructions behind this one, for the slots at which they stand.
    have hrest : Starts code (before.length + i.slots.length) → before.length + i.slots.length ≤ k →
        ((∃ j, (k, j) ∈ placed (before.length + i.slots.length) is) ↔
          k < code.size ∧ Starts code k) := by
      intro hstarts hle
      have hnext := @ih (before ++ i.slots)
      rw [List.length_append, List.append_assoc] at hnext
      exact hnext hcode hstarts hle
    have hcons : before.length < k → ((∃ j, (k, j) ∈ placed before.length (i :: is)) ↔
        ∃ j, (k, j) ∈ placed (before.length + i.slots.length) is) := by
      intro hlt
      simp only [placed, List.mem_cons, Prod.mk.injEq]
      refine exists_congr fun j => or_iff_right ?_
      rintro ⟨rfl, -⟩
      exact Nat.lt_irrefl _ hlt
    rcases Nat.eq_or_lt_of_le hk with rfl | hlt
    · refine iff_of_true ⟨i, List.mem_cons_self⟩ ⟨?_, hstart⟩
      rcases i.slots_cases with ⟨s, hs, -⟩ | ⟨s, upper, hs, -, -⟩
      · rw [hsize, hs, List.length_singleton]
        omega
      · rw [hsize, hs, List.length_cons]
        omega
    rw [hcons hlt]
    rcases i.slots_cases with ⟨s, hs, hnarrow⟩ | ⟨s, upper, hs, hwide, hnarrow⟩
    · rw [hs] at hrest hslot ⊢
      exact hrest (Emit.starts_succ (hslot 0 s rfl) hnarrow) hlt
    · rw [hs] at hrest hslot ⊢
      rcases Nat.eq_or_lt_of_le (Nat.succ_le_of_lt hlt) with rfl | hlt'
      · refine iff_of_false ?_ ?_
        · rintro ⟨j, hj⟩
          have := le_of_mem_placed hj
          simp only [List.length_cons, List.length_nil] at this
          omega
        · rintro ⟨-, hstarts⟩
          have hfalse := hstarts before.length s rfl (hslot 0 s rfl)
          rw [hwide] at hfalse
          cases hfalse
      · exact hrest (Emit.starts_succ (hslot 1 upper rfl) hnarrow) hlt'

end Listing

namespace Bytecode

open Listing (Entry)

theorem exists_entries {p : Program} {a : Allocation} {stack limit : Nat} {b : Bytecode}
    (h : generate p a stack limit = .ok b) :
    ∃ is : List Entry, b.code.toList = is.flatMap Entry.slots := by
  obtain ⟨hgen, -, -⟩ := generate_ok h
  have hfirst : Emit.Scope.whole.group [.movReg Reg.context 1] :=
    ⟨[.move Reg.context (.reg 1)], rfl⟩
  have hrow : Emit.Row .whole (Emit.layout a p) := .group hfirst
    (Emit.row_codeDrafts (fun i _ => Emit.written_whole a i) hgen.succeeds)
  have hlies : Emit.Lies b.code _ 0 (Emit.layout a p) := fun k d hd => by
    rw [Nat.zero_add]
    exact hgen.slots k d hd
  obtain ⟨is, his⟩ := hrow.entries hlies
  rw [← hgen.size, ← Array.length_toList, List.drop_zero, List.take_length] at his
  exact ⟨is, his⟩

/-- Generated code is told slot by slot by its bytes, of which each slot has eight, and also by its
listing. The lines of the listing show whole instructions, each behind the number of its first slot.
Every slot begins a line but the second half of a constant, which begins none. -/
theorem generate_lossless {p p' : Program} {a a' : Allocation} {stack stack' limit limit' : Nat}
    {b b' : Bytecode} (h : generate p a stack limit = .ok b)
    (h' : generate p' a' stack' limit' = .ok b') :
    (b.encode = b'.encode → b.code = b'.code) ∧ (b.render = b'.render → b.code = b'.code) ∧
    b.encode.length = 8 * b.code.size ∧
    ∃ is : List Entry, b.code.toList = is.flatMap Entry.slots ∧
      Text.lines b.render = (Listing.placed 0 is).map (fun q => Listing.label q.1 ++ q.2.text) ∧
      ∀ k, (∃ i, (k, i) ∈ Listing.placed 0 is) ↔ k < b.code.size ∧ Starts b.code k := by
  obtain ⟨is, his⟩ := exists_entries h
  obtain ⟨js, hjs⟩ := exists_entries h'
  have hnarrow : ∀ is : List Entry, ∀ s ∈ is.flatMap Entry.slots, s.Narrow := by
    intro is s hs
    obtain ⟨i, -, hi⟩ := List.mem_flatMap.1 hs
    exact i.narrow_slots s hi
  have hfirst : Starts b.code ([] : List Slot).length := by
    rintro j s ⟨⟩
  refine ⟨fun hbytes => ?_, fun htext => ?_, ?_, is, his, ?_, fun k => ?_⟩
  · rw [encode, encode, his, hjs] at hbytes
    apply Array.toList_inj.1
    rw [his, hjs, Slot.flatMap_encode_inj (hnarrow is) (hnarrow js) hbytes]
  · rw [render, render, his, hjs] at htext
    apply Array.toList_inj.1
    rw [his, hjs, Listing.disassemble_inj htext]
  · rw [encode, Slot.length_flatMap_encode, Array.length_toList]
  · rw [render, his, Listing.lines_disassemble]
  · exact Listing.mem_placed_iff his hfirst (Nat.zero_le k)

/-- A constant that is stored under a key in a map, and a jump to the end. -/
def storedConstant (value : Int64) : Program where
  name := "p"
  blocks :=
    #[{ code := #[.imm 0 value, .store 0 (-8), .update ⟨5⟩ (-16) (-8), .jump 1] },
      { code := #[.ret] }]

/-- Two constants with the same lower half, which stand in the second slot and the third. -/
theorem storedConstant_told_apart : ∃ b b',
    generate (storedConstant 0x700000001) ⟨#[some (.reg 6)]⟩ 16 4096 = .ok b ∧
    generate (storedConstant 0x800000001) ⟨#[some (.reg 6)]⟩ 16 4096 = .ok b' ∧
    b.encode ≠ b'.encode ∧ b.render ≠ b'.render ∧ b.encode.length = 120 ∧
    ∃ is : List Entry, Text.lines b.render =
        (Listing.placed 0 is).map (fun q => Listing.label q.1 ++ q.2.text) ∧
      (∃ i, (1, i) ∈ Listing.placed 0 is) ∧ ¬∃ i, (2, i) ∈ Listing.placed 0 is := by
  obtain ⟨b, hb, hsize, hfirst, hlower, hupper⟩ : ∃ b,
      generate (storedConstant 0x700000001) ⟨#[some (.reg 6)]⟩ 16 4096 = .ok b ∧ b.code.size = 15 ∧
      b.code[0]? = some (.movReg 9 1) ∧ b.code[1]? = some (.ofRegs Slot.wideCode 6 0 0 1) ∧
      b.code[2]? = some (Slot.upperHalf 0x700000001) := ⟨_, rfl, rfl, rfl, rfl, rfl⟩
  obtain ⟨b', hb', hupper'⟩ : ∃ b',
      generate (storedConstant 0x800000001) ⟨#[some (.reg 6)]⟩ 16 4096 = .ok b' ∧
      b'.code[2]? = some (Slot.upperHalf 0x800000001) := ⟨_, rfl, rfl⟩
  obtain ⟨hbytes, htext, hlength, is, -, hlines, hstarts⟩ := generate_lossless hb hb'
  have hne : b.code ≠ b'.code := by
    intro heq
    rw [heq, hupper'] at hupper
    exact absurd hupper (by decide)
  refine ⟨b, b', hb, hb', fun heq => hne (hbytes heq), fun heq => hne (htext heq), ?_, is, hlines,
    ?_, ?_⟩
  · rw [hlength, hsize]
  · exact (hstarts 1).2 ⟨by omega, Emit.starts_succ hfirst rfl⟩
  · intro hshown
    have hnarrow := ((hstarts 2).1 hshown).2 1 _ rfl hlower
    cases hnarrow

end Bytecode

end TraceScript
