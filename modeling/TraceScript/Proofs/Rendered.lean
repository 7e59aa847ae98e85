import Mathlib
import TraceScript.Kernel.DryRun
import TraceScript.Proofs.LineTokens
import TraceScript.Proofs.Prepared
import TraceScript.Proofs.Utf8

namespace TraceScript

/-- The bytes of a value and the text that a conversion makes of it. A string may have zeros after
it. -/
inductive Conversion.Shows : Conversion → List UInt8 → List Char → Prop
  | signed (v : Int64) : Shows .signed (Bytes.ofWord v.toUInt64) (toString v.toInt).toList
  | unsigned (v : UInt64) : Shows .unsigned (Bytes.ofWord v) (toString v.toNat).toList
  | hex (v : UInt64) : Shows .hex (Bytes.ofWord v) (Nat.toDigits 16 v.toNat)
  | char (v : UInt64) : Shows .char (Bytes.ofWord v) [Char.ofNat (v.toNat % 256)]
  | str (s : String) (zeros : Nat) : '\x00' ∉ s.toList →
      Shows .str (Text.utf8 s ++ List.replicate zeros 0) s.toList

/-- A format with texts in place of its conversions and one sign `%` for two. -/
def fillFormat : List Char → List (List Char) → List Char
  | '%' :: '%' :: cs, texts => '%' :: fillFormat cs texts
  | '%' :: _ :: cs, text :: texts => text ++ fillFormat cs texts
  | c :: cs, texts => c :: fillFormat cs texts
  | [], _ => []

namespace EventFormat

/-- The end of the last field. -/
def reach (f : EventFormat) : Nat := (f.fields.getLast?.map fun x => x.offset + x.size).getD 0

/-- One field for each conversion, each after the others and all of them inside the record. -/
structure Describes (f : EventFormat) (cs : List Conversion) (sizes : List Nat) : Prop where
  conversions : f.fields.map EventField.conversion = cs
  widths : f.fields.map EventField.size = sizes
  offsets : ∀ i, ∀ h : i < f.fields.length, (f.fields[i]).offset = (sizes.take i).sum
  inside : ∀ x ∈ f.fields, x.offset + x.size ≤ f.size

end EventFormat

namespace EventField

/-- Fields one after another from an offset on. -/
def sequence (offset : Nat) : List Conversion → List Nat → List EventField
  | c :: cs, n :: ns => ⟨c, offset, n⟩ :: sequence (offset + n) cs ns
  | _, _ => []

variable {cs : List Conversion} {ns : List Nat}

theorem sequence_facts (h : cs.length = ns.length) (offset : Nat) :
    (sequence offset cs ns).map conversion = cs ∧ (sequence offset cs ns).map size = ns ∧
      ∀ i, ∀ hi : i < (sequence offset cs ns).length,
        ((sequence offset cs ns)[i]).offset = offset + (ns.take i).sum := by
  induction cs generalizing ns offset with
  | nil =>
    obtain rfl := List.length_eq_zero_iff.1 h.symm
    exact ⟨rfl, rfl, nofun⟩
  | cons c cs ih =>
    obtain ⟨n, ns, rfl⟩ := List.exists_cons_of_length_eq_add_one h.symm
    obtain ⟨hc, hs, ho⟩ := ih (Nat.succ.inj h) (offset + n)
    refine ⟨congrArg (c :: ·) hc, congrArg (n :: ·) hs, fun i hi => ?_⟩
    cases i with
    | zero => rfl
    | succ i =>
      rw [List.take_succ_cons, List.sum_cons, ← Nat.add_assoc]
      exact ho i (Nat.lt_of_succ_lt_succ hi)

theorem sequence_inside (h : cs.length = ns.length) (offset : Nat) :
    ∀ x ∈ sequence offset cs ns, x.offset + x.size ≤ offset + ns.sum := by
  induction cs generalizing ns offset with
  | nil => exact nofun
  | cons c cs ih =>
    obtain ⟨n, ns, rfl⟩ := List.exists_cons_of_length_eq_add_one h.symm
    rw [List.sum_cons, ← Nat.add_assoc]
    rintro x (_ | ⟨_, hx⟩)
    · exact Nat.le_add_right ..
    · exact ih (Nat.succ.inj h) (offset + n) x hx

theorem getLast?_sequence (h : cs.length = ns.length) (hne : cs ≠ []) (offset : Nat) :
    ∃ x, (sequence offset cs ns).getLast? = some x ∧ x.offset + x.size = offset + ns.sum := by
  induction cs generalizing ns offset with
  | nil => exact absurd rfl hne
  | cons c cs ih =>
    obtain ⟨n, ns, rfl⟩ := List.exists_cons_of_length_eq_add_one h.symm
    cases cs with
    | nil =>
      obtain rfl := List.length_eq_zero_iff.1 (Nat.succ.inj h).symm
      exact ⟨⟨c, offset, n⟩, rfl, by simp⟩
    | cons d cs =>
      obtain ⟨x, hx, hend⟩ := ih (Nat.succ.inj h) (by simp) (offset + n)
      refine ⟨x, ?_, by rw [hend, List.sum_cons, Nat.add_assoc]⟩
      rw [sequence, List.getLast?_cons, hx]
      rfl

end EventField

theorem Flow.Evaluation.eventFields_eq (offset : Nat) (cs : List Conversion)
    (members : List Node) : eventFields offset cs members =
      EventField.sequence offset cs (members.map Node.packedSize) := by
  induction cs generalizing offset members with
  | nil => rfl
  | cons c cs ih =>
    cases members with
    | nil => rfl
    | cons n members => rw [eventFields, ih]; rfl

namespace EventField

theorem bytes?_append (c : Conversion) (pre v post : List UInt8) :
    (⟨c, pre.length, v.length⟩ : EventField).bytes? (pre ++ (v ++ post)) = some v := by
  rw [bytes?, if_pos (by simp)]
  simp

theorem word?_ofWord (v : UInt64) : word? (Bytes.ofWord v) = some v.toNat := by
  rw [word?, if_pos (by simp), List.take_of_length_le (by simp), Bytes.ofWord, Bytes.toNat_ofNat]
  exact congrArg some (Nat.mod_eq_of_lt v.toNat_lt)

theorem render_of_shows {c : Conversion} {v : List UInt8} {text : List Char} (h : c.Shows v text)
    (pre post : List UInt8) :
    (⟨c, pre.length, v.length⟩ : EventField).render (pre ++ (v ++ post)) = some text := by
  rw [render, bytes?_append]
  cases h with
  | signed v =>
    have hv : (v.toUInt64.toNat : Int).bmod UInt64.size = v.toInt :=
      (BitVec.toInt_eq_toNat_bmod v.toBitVec).symm
    simp only [Option.bind_eq_bind, Option.bind_some, word?_ofWord, hv]
    rfl
  | unsigned v => simp [word?_ofWord]
  | hex v => simp [word?_ofWord, Text.hex]
  | char v =>
    have hhead : (Bytes.ofWord v).head? = some (UInt8.ofNat v.toNat) := rfl
    simp only [Option.bind_eq_bind, Option.bind_some, hhead, UInt8.toNat_ofNat']
    rfl
  | str s zeros hs =>
    have htake := Bytes.takeWhile_append_zeros (Text.zero_not_mem_utf8 hs) zeros
    simp only [Option.bind_eq_bind, Option.bind_some, htake, Text.decodeLossy_utf8]
    rfl

/-- Integers are shown from whole words. -/
def Fits (f : EventField) : Prop := f.conversion ≠ .str → f.size = 8

theorem render_eq_none_iff {f : EventField} (h : f.Fits) (data : List UInt8) :
    f.render data = none ↔ data.length < f.offset + f.size := by
  by_cases hlen : f.offset + f.size ≤ data.length
  · have hbytes : f.bytes? data = some ((data.drop f.offset).take f.size) := if_pos hlen
    have hsize : ((data.drop f.offset).take f.size).length = f.size := by
      rw [List.length_take, List.length_drop]
      omega
    refine iff_of_false ?_ (Nat.not_lt.2 hlen)
    rw [render, hbytes, Option.bind_eq_bind, Option.bind_some]
    generalize (data.drop f.offset).take f.size = bytes at hsize
    cases hc : f.conversion with
    | str => exact nofun
    | char =>
      obtain ⟨b, bs, rfl⟩ := List.exists_cons_of_length_eq_add_one (hsize.trans (h (by simp [hc])))
      exact nofun
    | signed | unsigned | hex =>
      have hword : word? bytes = some (Bytes.toNat (bytes.take 8)) :=
        if_pos (by rw [hsize, h (by simp [hc])])
      rw [hword]
      exact nofun
  · refine iff_of_true ?_ (Nat.lt_of_not_le hlen)
    rw [render, bytes?, if_neg hlen]
    rfl

end EventField

namespace EventFormat

theorem renderPieces_fill {format : List Char} {cs : List Conversion}
    (hcs : conversionsOf (formatPieces format) = .ok cs) {vs : List (List UInt8)}
    {texts : List (List Char)}
    (h : List.Forall₂ (fun cv text => cv.1.Shows cv.2 text) (cs.zip vs) texts)
    (hlen : cs.length = vs.length) (pre post : List UInt8) :
    renderPieces (pre ++ (vs.flatten ++ post)) (formatPieces format)
      (EventField.sequence pre.length cs (vs.map List.length)) =
        some (fillFormat format texts) := by
  fun_induction formatPieces format generalizing cs vs texts pre with
  | case1 => rfl
  | case2 => cases hcs
  | case3 format ih =>
    rw [renderPieces, ih hcs h hlen, fillFormat]
    rfl
  | case4 c format hc ih =>
    rw [conversionsOf] at hcs
    cases hconv : Conversion.ofChar? c with
    | none =>
      rw [hconv] at hcs
      cases hcs
    | some conversion =>
      rw [hconv] at hcs
      obtain ⟨cs, hrest, rfl⟩ := Run.except_map_ok.1 hcs
      obtain ⟨v, vs, rfl⟩ := List.exists_cons_of_length_eq_add_one hlen.symm
      obtain _ | ⟨hshows, hrests⟩ := h
      have hfield := EventField.render_of_shows hshows pre (vs.flatten ++ post)
      have hmore := ih hrest hrests (Nat.succ.inj hlen) (pre ++ v)
      rw [List.length_append, List.append_assoc] at hmore
      rw [List.flatten_cons, List.append_assoc, List.map_cons, EventField.sequence, renderPieces,
        hfield, hmore, fillFormat]
      · rfl
      · exact hc
  | case5 c format hend _ hpercent ih =>
    have hc : c ≠ '%' := by
      rintro rfl
      cases format with
      | nil => exact hend rfl rfl
      | cons d format => exact hpercent d format rfl rfl
    rw [renderPieces, ih hcs h hlen, fillFormat]
    · rfl
    all_goals intros; exact hc ‹_›

theorem renderPieces_eq_none_iff {ps : List FormatPiece} {cs : List Conversion}
    (hcs : conversionsOf ps = .ok cs) {fs : List EventField} (hlen : fs.length = cs.length)
    (data : List UInt8) :
    renderPieces data ps fs = none ↔ ∃ f ∈ fs, f.render data = none := by
  fun_induction conversionsOf ps generalizing cs fs with
  | case1 =>
    obtain rfl := Except.ok.inj hcs
    obtain rfl := List.length_eq_zero_iff.1 hlen
    exact iff_of_false nofun nofun
  | case2 c ps ih =>
    rw [renderPieces, Option.map_eq_none_iff]
    exact ih hcs hlen
  | case3 ps ih =>
    rw [renderPieces, Option.map_eq_none_iff]
    exact ih hcs hlen
  | case4 => cases hcs
  | case5 c ps h => cases hcs
  | case6 c ps conversion h ih =>
    obtain ⟨cs, hrest, rfl⟩ := Run.except_map_ok.1 hcs
    obtain ⟨f, fs, rfl⟩ := List.exists_cons_of_length_eq_add_one hlen
    have hmore := ih hrest (Nat.succ.inj hlen)
    simp only [renderPieces, List.mem_cons, exists_eq_or_imp, ← hmore]
    cases f.render data <;> cases renderPieces data ps fs <;> simp

theorem render_eq_none_iff {f : EventFormat} {cs : List Conversion} {sizes : List Nat}
    (hcs : conversions f.format = .ok cs) (hfields : f.fields = EventField.sequence 0 cs sizes)
    (hlen : cs.length = sizes.length) (hfits : ∀ x ∈ f.fields, x.Fits) (data : List UInt8) :
    f.render data = none ↔ data.length < f.reach := by
  have hcount : f.fields.length = cs.length := by
    rw [← (EventField.sequence_facts hlen 0).1, List.length_map, hfields]
  rw [render, Option.map_eq_none_iff, renderPieces_eq_none_iff hcs hcount]
  by_cases hne : cs = []
  · have hnone : f.fields = [] := by rw [hfields, hne, EventField.sequence]; exact nofun
    rw [reach, hnone]
    exact iff_of_false nofun nofun
  · obtain ⟨x, hx, hend⟩ := EventField.getLast?_sequence hlen hne 0
    rw [← hfields] at hx
    have hreach : f.reach = x.offset + x.size := by rw [reach, hx]; rfl
    rw [hreach]
    constructor
    · rintro ⟨y, hy, hnone⟩
      have := EventField.sequence_inside hlen 0 y (hfields ▸ hy)
      have := (EventField.render_eq_none_iff (hfits y hy) data).1 hnone
      omega
    · intro h
      have hx := List.mem_of_getLast? hx
      exact ⟨x, hx, (EventField.render_eq_none_iff (hfits x hx) data).2 h⟩

end EventFormat

namespace Node

/-- The statements inside a statement. -/
def inner : Node → List Node
  | .cond _ _ yes no => yes ++ no
  | .unroll _ _ body => body
  | _ => []

/-- The statement at a path of positions inside a statement. -/
def within (n : Node) : List Nat → Option Node
  | [] => some n
  | i :: path => n.inner[i]?.bind (·.within path)

end Node

/-- The statement at a path inside the statement at a position. -/
def Probe.at? (p : Probe) (i : Nat) (path : List Nat) : Option Node :=
  p.body[i]?.bind (·.within path)

theorem TypedStatement.inner {t : Table} {n : Node} (h : TypedStatement t n) :
    ∀ m ∈ n.inner, TypedStatement t m := by
  cases h with
  | cond _ _ hyes hno =>
    intro m hm
    exact (List.mem_append.1 hm).elim (hyes m) (hno m)
  | unroll hbody => exact hbody
  | _ => exact nofun

theorem TypedStatement.within {t : Table} {n m : Node} {path : List Nat} (h : TypedStatement t n)
    (hm : n.within path = some m) : TypedStatement t m := by
  induction path generalizing n with
  | nil => exact Option.some.inj hm ▸ h
  | cons i path ih =>
    obtain ⟨k, hk, hm⟩ := Option.bind_eq_some_iff.1 hm
    exact ih (h.inner k (List.mem_of_getElem? hk)) hm

theorem PlacedStatement.inner {t : Table} {n n' : Node} {rs : List Region}
    (h : PlacedStatement t n n' rs) : ∃ ks : List Placing, n.inner = ks.map Placing.node ∧
      n'.inner = ks.map Placing.placed ∧ (ks.flatMap Placing.regions).Sublist rs ∧
      ∀ k ∈ ks, PlacedStatement t k.node k.placed k.regions := by
  cases h with
  | @cond _ _ _ rs yes no _ _ hyes hno =>
    refine ⟨yes ++ no, by simp [Node.inner], by simp [Node.inner], ?_, fun k hk => ?_⟩
    · rw [List.flatMap_append]
      exact List.sublist_append_right ..
    · exact (List.mem_append.1 hk).elim (hyes k) (hno k)
  | @unroll _ _ body hbody => exact ⟨body, rfl, rfl, .refl _, hbody⟩
  | _ => exact ⟨[], rfl, rfl, List.nil_sublist _, List.forall_mem_nil _⟩

theorem PlacedStatement.within {t : Table} {n n' m : Node} {rs : List Region} {path : List Nat}
    (h : PlacedStatement t n n' rs) (hm : n.within path = some m) :
    ∃ m' qs, n'.within path = some m' ∧ PlacedStatement t m m' qs ∧ qs.Sublist rs := by
  induction path generalizing n n' rs with
  | nil => exact ⟨n', rs, rfl, Option.some.inj hm ▸ h, .refl rs⟩
  | cons i path ih =>
    obtain ⟨ks, hn, hn', hrs, hks⟩ := h.inner
    rw [Node.within, hn, List.getElem?_map, Option.bind_map] at hm
    obtain ⟨k, hk, hm⟩ := Option.bind_eq_some_iff.1 hm
    have hmem := List.mem_of_getElem? hk
    obtain ⟨m', qs, hm', hplaced, hqs⟩ := ih (hks k hmem) hm
    refine ⟨m', qs, ?_, hplaced, ?_⟩
    · rw [Node.within, hn', List.getElem?_map, hk]
      exact hm'
    · exact hqs.trans ((List.sublist_flatten_of_mem (List.mem_map_of_mem hmem)).trans hrs)

theorem TypedStatement.of_out {t : Table} {tag : Tag} {function : Name} {args : List Node}
    (h : TypedStatement t (.call tag function args)) (hout : Builtin.ofName? function = some .out) :
    ∃ formatTag format recordTag members cs,
      args = [.text formatTag format, .record recordTag members] ∧ conversions format = .ok cs ∧
      Accepts cs members := by
  cases h with
  | call hc =>
    cases hc with
    | query hb hmem => simp [Option.some.inj (hb.symm.trans hout)] at hmem
    | arg hb | comm hb | strcmp hb => cases hb.symm.trans hout
  | out _ _ _ hcs hacc => exact ⟨_, _, _, _, _, rfl, hcs, hacc⟩

open TraceScript.Flow TraceScript.Flow.Evaluation

section

variable {w : World} {t : Table} {ks : List Placing}

theorem packed_eq_values (hks : ∀ k ∈ ks, Lowers w t k.node k.placed k.regions false)
    (m : Memory) (o : Outside) :
    let vs := Node.values w t.scope (t.contents m) (ks.map Placing.node) o
    Node.packed w t.scope (t.contents m) (ks.map Placing.node) o = (vs.1.flatten, vs.2) ∧
      vs.1.map List.length = (ks.map Placing.node).map Node.packedSize := by
  induction ks generalizing o with
  | nil => exact ⟨rfl, rfl⟩
  | cons k ks ih =>
    have hk := hks k List.mem_cons_self
    have hlen := hk.length ⟨m, fun _ => 0, o⟩
    have hext := hk.extend_value ⟨m, fun _ => 0, o⟩
    rw [hk.packedSize_eq] at hext
    simp only [Node.valueIn] at hlen hext
    obtain ⟨hpacked, hsizes⟩ := ih (fun k hk => hks k (List.mem_cons_of_mem _ hk))
      (k.node.value w t.scope (t.contents m) o).2
    simp only [List.map_cons, Node.packed, Node.values, hpacked, List.flatten_cons, hsizes, hlen,
      hk.packedSize_eq, hext, and_self]

theorem packedSize_of_accepts {c : Conversion} {k : Placing}
    (hk : Lowers w t k.node k.placed k.regions false)
    (h : ∃ type, k.node.facts.type = some type ∧ c.accepts type = true) (hc : c ≠ .str) :
    k.node.packedSize = 8 := by
  obtain ⟨type, htype, haccepts⟩ := h
  have hint : type = .int := by
    cases c with
    | str => exact absurd rfl hc
    | _ => simpa [Conversion.accepts] using haccepts
  obtain ⟨sh, hs, -, hv⟩ := hk.shape
  have hsh : sh = .int := hv.eq_int
    (Option.some.inj ((Facts.shape_eq_some.1 hs).1.symm.trans (htype.trans (congrArg some hint))))
  rw [hk.packedSize_eq, Facts.size_of_shape hs, hsh]
  rfl

theorem fits_of_accepts (hks : ∀ k ∈ ks, Lowers w t k.node k.placed k.regions false)
    {cs : List Conversion} (h : Accepts cs (ks.map Placing.node)) (offset : Nat) :
    ∀ x ∈ EventField.sequence offset cs ((ks.map Placing.node).map Node.packedSize), x.Fits := by
  induction cs generalizing ks offset with
  | nil => exact nofun
  | cons c cs ih =>
    cases ks with
    | nil => cases h
    | cons k ks =>
      obtain _ | ⟨hc, hcs⟩ := h
      rintro x (_ | ⟨_, hx⟩)
      · exact packedSize_of_accepts (hks k List.mem_cons_self) hc
      · exact ih (fun k hk => hks k (List.mem_cons_of_mem _ hk)) hcs _ x hx

theorem words_of_accepts (hks : ∀ k ∈ ks, Lowers w t k.node k.placed k.regions false)
    {cs : List Conversion} (h : Accepts cs (ks.map Placing.node)) {vs : List (List UInt8)}
    (hvs : vs.map List.length = (ks.map Placing.node).map Node.packedSize) :
    List.Forall₂ (fun c v => c ≠ .str → ∃ x, v = Bytes.ofWord x) cs vs := by
  induction cs generalizing ks vs with
  | nil =>
    cases ks with
    | nil =>
      obtain rfl := List.map_eq_nil_iff.1 hvs
      exact .nil
    | cons k ks => cases h
  | cons c cs ih =>
    cases ks with
    | nil => cases h
    | cons k ks =>
      obtain _ | ⟨hc, hcs⟩ := h
      obtain ⟨v, vs, rfl, hv, hvs⟩ := List.map_eq_cons_iff.1 hvs
      refine .cons (fun hne => ⟨Bytes.toWord v, (Bytes.ofWord_toWord ?_).symm⟩)
        (ih (fun k hk => hks k (List.mem_cons_of_mem _ hk)) hcs hvs)
      exact hv.trans (packedSize_of_accepts (hks k List.mem_cons_self) hc hne)

end

namespace EventFormat

/-- A format says how records of some values are laid out and what their texts are. -/
structure Renders (f : EventFormat) (cs : List Conversion) (sizes : List Nat) : Prop where
  describes : f.Describes cs sizes
  text : ∀ (vs : List (List UInt8)) (texts : List (List Char)), vs.map List.length = sizes →
    List.Forall₂ (fun cv text => cv.1.Shows cv.2 text) (cs.zip vs) texts →
    f.render (Bytes.extend f.size vs.flatten) =
      some (String.ofList (fillFormat f.format.toList texts))
  none_iff : ∀ data, f.render data = none ↔ data.length < f.reach

theorem Renders.of_sequence {f : EventFormat} {cs : List Conversion} {sizes : List Nat}
    (hcs : conversions f.format = .ok cs) (hfields : f.fields = EventField.sequence 0 cs sizes)
    (hlen : cs.length = sizes.length) (hsize : sizes.sum ≤ f.size)
    (hfits : ∀ x ∈ f.fields, x.Fits) : f.Renders cs sizes where
  describes := by
    obtain ⟨hconversions, hwidths, hoffsets⟩ := EventField.sequence_facts hlen 0
    have hinside := EventField.sequence_inside hlen 0
    rw [← hfields] at hconversions hwidths hinside
    refine ⟨hconversions, hwidths, fun i hi => ?_, fun x hx => ?_⟩
    · have := hoffsets i (hfields ▸ hi)
      rw [Nat.zero_add] at this
      rw [← this]
      congr 1
      simp only [hfields]
    · have := hinside x hx
      omega
  text vs texts hvs hshows := by
    have hcount : cs.length = vs.length := by rw [hlen, ← hvs, List.length_map]
    have hflat : vs.flatten.length ≤ f.size := by rwa [List.length_flatten, hvs]
    have hpost : Bytes.extend f.size vs.flatten = [] ++ (vs.flatten ++
        List.replicate (f.size - vs.flatten.length) 0) := by
      rw [Bytes.extend, List.take_append, List.take_of_length_le hflat, List.take_replicate,
        Nat.min_eq_left (Nat.sub_le ..), List.nil_append]
    have hfill := renderPieces_fill hcs hshows hcount []
      (List.replicate (f.size - vs.flatten.length) 0)
    rw [hvs] at hfill
    rw [render, hfields, hpost]
    exact congrArg (Option.map String.ofList) hfill
  none_iff := render_eq_none_iff hcs hfields hlen hfits

end EventFormat

theorem Compile.Prepares.typed_at {σ : Type} {k : Kernel σ} {options : Options} {source : Source}
    {typed placed : Probe} {bound table : Table} {i : Nat} {path : List Nat} {n : Node}
    (h : Compile.Prepares k options source typed bound placed table)
    (hn : typed.at? i path = some n) : ∃ t, TypedStatement t n := by
  obtain ⟨ps, hparse, p, hp, typing, htyped, -⟩ := h
  obtain ⟨-, -, hall⟩ := Probe.annotate_typed (parseScript_statements hparse p hp) htyped
  obtain ⟨m, hm, hn⟩ := Option.bind_eq_some_iff.1 hn
  exact ⟨typing.table, (hall m (List.mem_of_getElem? hm)).within hn⟩

theorem Prepared.placed_at {bound table : Table} {typed placed : Probe} {ks : List Placing}
    (h : Prepared bound table typed placed ks) {i : Nat} {path : List Nat} {n : Node}
    (hn : typed.at? i path = some n) : ∃ n' rs, placed.at? i path = some n' ∧
      PlacedStatement table n n' rs ∧ rs.Sublist (ks.flatMap Placing.regions) := by
  rw [Probe.at?, h.nodes, List.getElem?_map, Option.bind_map] at hn
  obtain ⟨k, hk, hn⟩ := Option.bind_eq_some_iff.1 hn
  have hmem := List.mem_of_getElem? hk
  obtain ⟨n', rs, hn', hplaced, hrs⟩ := (h.statements k hmem).within hn
  refine ⟨n', rs, ?_, hplaced, hrs.trans (List.sublist_flatten_of_mem (List.mem_map_of_mem hmem))⟩
  rw [Probe.at?, h.placed, List.getElem?_map, hk]
  exact hn'

/-- Lowering a call that sends an event keeps one format and adds code that ends in the sending of
one record. The record holds the values of the members in order, the format has its size, and the
text of any such record is the format filled in. -/
theorem out_event_renders {σ : Type} {k : Kernel σ} {options : Options} {source : Source}
    {typed placed : Probe} {bound table : Table}
    (h : Compile.Prepares k options source typed bound placed table)
    {i : Nat} {path : List Nat} {tag : Tag} {function : Name} {args : List Node}
    (hcall : typed.at? i path = some (.call tag function args))
    (hout : Builtin.ofName? function = some .out) :
    ∃ formatTag recordTag members cs channel f call',
      args = [.text formatTag f.format, .record recordTag members] ∧
      conversions f.format = .ok cs ∧ f.size = recordTag.facts.size ∧
      f.Renders cs (members.map Node.packedSize) ∧ placed.at? i path = some call' ∧
      ∀ (w : World) (s : Builder), ∃ addr c,
        Flow.statement table call' s =
          .ok ((), (s.append (c ++ ⟨[.call (.out addr f.size channel) none], []⟩)).announce #[f]) ∧
        (placed.frameTotal table < 2 ^ 31 → w.Keeps bound → ∀ st : State,
          let vs := Node.values w bound.scope (table.contents st.frame) members st.outside
          (Instruction.runAll w (c.code ++ [.call (.out addr f.size channel) none]) st).outside =
            vs.2.send channel (Bytes.extend f.size vs.1.flatten) ∧
          vs.1.map List.length = members.map Node.packedSize ∧
          List.Forall₂ (fun c v => c ≠ .str → ∃ x, v = Bytes.ofWord x) cs vs.1) := by
  obtain ⟨ks, hprep⟩ := h.prepared
  obtain ⟨t, htyped⟩ := h.typed_at hcall
  obtain ⟨call', rs, hat, hplaced, hrs⟩ := hprep.placed_at hcall
  obtain ⟨_, format, _, _, cs, rfl, hcs, hacc⟩ := htyped.of_out hout
  cases hplaced with
  | call hc =>
    cases hc with
    | strcmp hb => cases hb.symm.trans hout
  | @out _ _ _ _ _ _ ms cs' channel addr sh hb _ hcs' hlen hchannel hsh hs hs' ha hm =>
    obtain rfl : cs = cs' := Except.ok.inj (hcs.symm.trans hcs')
    have hlow : ∀ w, ∀ k ∈ ms, Lowers w table k.node k.placed k.regions false :=
      fun w k hk => lowers_of_placed hprep.ready_table (hm k hk)
    have hsizes : (ms.map Placing.placed).map Node.packedSize =
        (ms.map Placing.node).map Node.packedSize := by
      rw [List.map_map, List.map_map]
      exact List.map_congr_left fun k hk => congrArg align8 (hm k hk).size_eq
    have hfields := eventFields_eq 0 cs (ms.map Placing.placed)
    rw [hsizes] at hfields
    have hsum : ((ms.map Placing.node).map Node.packedSize).sum ≤ sh.size := by
      rw [hsh]
      exact Nat.le_max_left ..
    have hcount : cs.length = ((ms.map Placing.node).map Node.packedSize).length := by
      simpa using hlen
    refine ⟨_, _, _, cs, channel, ⟨format, eventFields 0 cs (ms.map Placing.placed), sh.size⟩, _,
      rfl, hcs, (Facts.size_of_shape hs).symm, ?_, hat, fun w s => ?_⟩
    · exact .of_sequence hcs hfields hcount hsum
        (hfields ▸ fits_of_accepts (hlow default) hacc 0)
    · obtain ⟨c, hc⟩ := straight_out hb hcs hchannel hsh hs hs' ha (hlow w) s
      refine ⟨addr, c, hc.run, fun htotal hw st => ?_⟩
      obtain ⟨hpacked, hlengths⟩ := packed_eq_values (hlow w) st.frame st.outside
      rw [hprep.steps.places.scope_eq] at hpacked hlengths
      refine ⟨?_, hlengths, words_of_accepts (hlow w) hacc hlengths⟩
      have hmeaning := congrArg Situation.outside
        (hc.meaning ((hprep.framed htotal hw).sublist hrs) st)
      rw [Node.perform, if_pos hout, Node.emit_of_channel hchannel,
        hprep.steps.places.scope_eq] at hmeaning
      simp only [Node.value, Facts.size_of_shape hs, Table.situation, hpacked] at hmeaning
      exact hmeaning

/-- A call inside a branch that shows each kind of value. -/
def loadReport : Source where
  name := "load"
  lines :=
    ["probe p \x7b if (cpu() < 4) \x7b out(\"%s %d%% %x%c\", comm(), 0 - 7, 255, 65); \x7d \x7d"]

/-- A process whose name is not ASCII, and a channel. -/
def loadWorld : World where
  pid := 7
  tid := 8
  cpu := 0
  args _ := 0
  comm := Text.utf8 "é"
  clock _ := 0
  created
    | ⟨3⟩ => some ⟨.perfEventArray, 4, 4, 1⟩
    | _ => none

def loadValues : List (List UInt8) :=
  [Text.utf8 "é" ++ List.replicate 14 0, Bytes.ofWord (-7 : Int64).toUInt64, Bytes.ofWord 255,
    Bytes.ofWord 65]

theorem loadReport_renders :
    ∃ typed bound placed table tag function formatTag recordTag members call channel,
      ∃ f : EventFormat, Compile.Prepares DryRun.kernel {} loadReport typed bound placed table ∧
      placed.frameTotal table < 2 ^ 31 ∧ loadWorld.Keeps bound ∧
      typed.at? 0 [0] = some (.call tag function
        [.text formatTag "%s %d%% %x%c", .record recordTag members]) ∧
      Builtin.ofName? function = some .out ∧ placed.at? 0 [0] = some call ∧
      f.render (Bytes.extend 40 loadValues.flatten) = some "é -7% ffA" ∧
      ∀ s : Builder, ∃ addr c,
        Flow.statement table call s =
          .ok ((), (s.append (c ++ ⟨[.call (.out addr 40 channel) none], []⟩)).announce #[f]) ∧
        ∀ st : State, (Instruction.runAll loadWorld
            (c.code ++ [.call (.out addr 40 channel) none]) st).outside =
          st.outside.send channel (Bytes.extend 40 loadValues.flatten) := by
  have hprepares : ∃ typed bound placed table tag function formatTag recordTag members,
      Compile.Prepares DryRun.kernel {} loadReport typed bound placed table ∧
      placed.frameTotal table < 2 ^ 31 ∧
      typed.at? 0 [0] = some (.call tag function
        [.text formatTag "%s %d%% %x%c", .record recordTag members]) ∧
      loadWorld.Keeps bound ∧ Builtin.ofName? function = some .out ∧ recordTag.facts.size = 40 ∧
      members.map Node.packedSize = [16, 8, 8, 8] ∧
      ∀ vars o, Node.values loadWorld bound.scope vars members o = (loadValues, o) := by
    refine ⟨?_, ?_, ?_, ?_, ?_, ?_, ?_, ?_, ?_, ⟨?_, ?_, ?_⟩, ?_⟩
    rotate_left 10
    · conv => lhs; cbv
    · refine ⟨_, List.mem_cons_self, ?_, ?_, ⟨{ kernel := {} }, ?_, ?_⟩, ?_⟩
      rotate_left 1
      · conv => lhs; cbv
      rotate_left 1
      · exact rfl
      · exact rfl
    · refine ⟨by decide +kernel, ?_, ?_⟩
      · conv => lhs; cbv
      · refine ⟨⟨by decide +kernel, by decide +kernel⟩, by decide +kernel, by decide +kernel,
          by decide +kernel, fun vars o => ?_⟩
        rfl
  obtain ⟨typed, bound, placed, table, tag, function, formatTag, recordTag, members, hp, htotal,
    hat, hkeeps, hout, hsize, hsizes, hvalues⟩ := hprepares
  obtain ⟨_, _, _, cs, channel, f, call, hargs, hcs, hf, hrenders, hplaced, hsends⟩ :=
    out_event_renders hp hat hout
  simp only [List.cons.injEq, Node.text.injEq, Node.record.injEq, and_true] at hargs
  obtain ⟨⟨rfl, hformat⟩, rfl, rfl⟩ := hargs
  have hconversions : conversions f.format = .ok [.str, .signed, .hex, .char] := by
    rw [← hformat]
    decide +kernel
  obtain rfl := Except.ok.inj (hcs.symm.trans hconversions)
  have htext := hrenders.text loadValues [['é'], ['-', '7'], ['f', 'f'], ['A']]
    (hsizes ▸ by decide +kernel) (.cons (.str "é" 14 (by decide))
      (.cons (.signed (-7)) (.cons (.hex 255) (.cons (.char 65) .nil))))
  rw [hf, hsize] at htext hsends
  rw [← hformat] at htext
  refine ⟨typed, bound, placed, table, tag, function, formatTag, recordTag, members, call, channel,
    f, hp, htotal, hkeeps, hat, hout, hplaced, htext, fun s => ?_⟩
  obtain ⟨addr, c, hrun, hsent⟩ := hsends loadWorld s
  refine ⟨addr, c, hrun, fun st => ?_⟩
  obtain ⟨hevent, -⟩ := hsent htotal hkeeps st
  rwa [hvalues] at hevent

/-- An event with a string, after a variable for a literal that takes `2 ^ 32 - 16` bytes. -/
def overrunReport : Source := .around "probe p \x7b z = 0; t = \"x\"; unroll(0) \x7b s ="
  (wideText (2 ^ 30 - 5)) "; \x7d out(\"%d%s\", 1, t); \x7d"

/-- The literal lifts the frame to its end again, and the record gets the slot of the string. Its first
member is written there before the string is read. -/
theorem overrunReport_renders : overrunReport.fits = true ∧
    ∃ typed bound placed table built f s',
      Compile.Prepares DryRun.kernel {} overrunReport typed bound placed table ∧
      Flow.ofProbe table placed = .ok built ∧ loadWorld.Keeps bound ∧ built.outputs = [f] ∧
      built.program.Finishes loadWorld ⟨fun _ => 0, fun _ => 0, { store := fun _ _ => none }⟩ s' ∧
      s'.outside.trace = [.event ⟨3⟩ (Bytes.ofWord 1 ++ Bytes.ofWord 1)] ∧
      f.render (Bytes.ofWord 1 ++ Bytes.ofWord 1) = some "1\x01" ∧
      f.render (Bytes.ofWord 1 ++ Bytes.extend 8 (Text.utf8 "x")) = some "1x" := by
  have hprepares : ∃ typed bound placed table,
      Compile.Prepares DryRun.kernel {} overrunReport typed bound placed table ∧
      loadWorld.Keeps bound ∧ (Flow.ofProbe table placed).toOption.any fun built =>
        let c := follow (built.program.step loadWorld) 20
          ⟨0, 0, fun _ => 0, fun _ => 0, { store := fun _ _ => none }⟩
        built.outputs = [⟨"%d%s", [⟨.signed, 0, 8⟩, ⟨.str, 8, 8⟩], 16⟩] ∧
          built.program.fetch c.block c.index = some .ret ∧
          c.state.outside.trace = [.event ⟨3⟩ (Bytes.ofWord 1 ++ Bytes.ofWord 1)] := by
    apply Compile.exists_prepares (s := { kernel := {} })
    · rw [overrunReport, Token.parseScript_around _ (by decide) (by cbv) (by cbv)]
      conv => lhs; cbv
    · conv =>
        lhs
        simp only [Probe.annotate, Annotate.statements, Annotate.statement, Annotate.declaration,
          Annotate.expression_sealed]
        cbv
    · exact rfl
    · exact ⟨⟨by decide +kernel, by decide +kernel⟩, by decide +kernel⟩
  obtain ⟨typed, bound, placed, table, hp, hkeeps, heval⟩ := hprepares
  obtain ⟨built, hbuilt, heval⟩ := Run.except_ok_of_any heval
  obtain ⟨houtputs, hret, htrace⟩ := of_decide_eq_true heval
  exact ⟨Source.around_fits (by decide), typed, bound, placed, table, built, _, _, hp, hbuilt, hkeeps,
    houtputs, ⟨_, _, reaches_follow _ 20 _, hret⟩, htrace, by decide +kernel, by decide +kernel⟩

end TraceScript
