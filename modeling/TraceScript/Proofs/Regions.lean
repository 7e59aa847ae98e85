import Mathlib.Algebra.BigOperators.Group.List.Basic
import Mathlib.Tactic.Linarith
import TraceScript.Proofs.Memory
import TraceScript.Proofs.Typed

namespace TraceScript

/-- Regions that fill a frame from its lowest address to its end. -/
structure Packed (top : Int) (rs : List Region) : Prop where
  disjoint : rs.Pairwise Region.Disjoint
  bounds : ∀ r ∈ rs, top ≤ r.addr ∧ r.addr + r.size ≤ 0
  aligned : ∀ r ∈ rs, r.addr % 8 = 0
  total : ((rs.map Region.size).sum : Int) = -top

namespace Packed

theorem nil : Packed 0 [] where
  disjoint := .nil
  bounds := nofun
  aligned := nofun
  total := rfl

theorem perm {top : Int} {rs qs : List Region} (h : Packed top rs) (hp : rs.Perm qs) :
    Packed top qs where
  disjoint := (hp.pairwise_iff Region.Disjoint.symm).1 h.disjoint
  bounds r hr := h.bounds r (hp.mem_iff.2 hr)
  aligned r hr := h.aligned r (hp.mem_iff.2 hr)
  total := by rw [← h.total, (hp.map Region.size).sum_eq]

theorem top_mod {top : Int} {rs : List Region} (h : Packed top rs)
    (hmod : ∀ r ∈ rs, r.size % 8 = 0) : top % 8 = 0 := by
  have hsum : (rs.map Region.size).sum % 8 = 0 := by
    clear h
    induction rs with
    | nil => rfl
    | cons r rs ih =>
      have h1 := hmod r List.mem_cons_self
      have h2 := ih fun q hq => hmod q (List.mem_cons_of_mem _ hq)
      rw [List.map_cons, List.sum_cons]
      omega
  have := h.total
  omega

end Packed

theorem frameSize_of_align8 {size : Nat} (h : align8 size < 2 ^ 31) :
    frameSize size = align8 size := by
  unfold frameSize UInt32.size
  apply Int.bmod_eq_of_le <;> omega

theorem frameSize_of_lt {size : Nat} (hmod : size % 8 = 0) (hlt : size < 2 ^ 31) :
    frameSize size = size := by
  rw [frameSize_of_align8 (by rwa [align8_of_mod hmod]), align8_of_mod hmod]

namespace Frame

/-- The regions that a frame hands out for some sizes one after another, and the frame after that. -/
def reserveAll (f : Frame) : List Nat → List Region × Frame
  | [] => ([], f)
  | size :: sizes =>
    let first := f.reserve size
    let others := first.2.reserveAll sizes
    (⟨first.1, align8 (max size 1)⟩ :: others.1, others.2)

theorem reserveAll_append (f : Frame) (ss ss' : List Nat) :
    f.reserveAll (ss ++ ss') =
      ((f.reserveAll ss).1 ++ ((f.reserveAll ss).2.reserveAll ss').1,
        ((f.reserveAll ss).2.reserveAll ss').2) := by
  induction ss generalizing f with
  | nil => rfl
  | cons size ss ih =>
    rw [List.cons_append, reserveAll, ih]
    rfl

theorem size_of_reserveAll {f : Frame} {sizes : List Nat} {r : Region}
    (hr : r ∈ (f.reserveAll sizes).1) : 0 < r.size ∧ r.size % 8 = 0 := by
  induction sizes generalizing f with
  | nil => cases hr
  | cons size sizes ih =>
    rcases List.mem_cons.1 hr with rfl | hr
    · have := le_align8 (max size 1)
      exact ⟨by dsimp only; omega, align8_mod _⟩
    · exact ih hr

theorem reserveAll_one (f : Frame) {size : Nat} (hpos : 0 < size) (hmod : size % 8 = 0) :
    f.reserveAll [size] = ([⟨(f.reserve size).1, size⟩], (f.reserve size).2) := by
  have hmax : max size 1 = size := by omega
  rw [reserveAll, hmax, align8_of_mod hmod]
  rfl

theorem reserveAll_bounds (f : Frame) (sizes : List Nat)
    (h : ((f.reserveAll sizes).1.map Region.size).sum < 2 ^ 31) :
    (f.reserveAll sizes).2.top = f.top - (((f.reserveAll sizes).1.map Region.size).sum : Nat) ∧
      ∀ r ∈ (f.reserveAll sizes).1, (f.reserveAll sizes).2.top ≤ r.addr := by
  induction sizes generalizing f with
  | nil => exact ⟨by simp [reserveAll], nofun⟩
  | cons size sizes ih =>
    simp only [reserveAll, List.map_cons, List.sum_cons, List.forall_mem_cons] at h ⊢
    obtain ⟨htop, hbelow⟩ := ih (f.reserve size).2 (by omega)
    have hfirst : (f.reserve size).2.top = f.top - align8 (max size 1) :=
      congrArg (f.top - ·) (frameSize_of_align8 (by omega))
    have haddr : (f.reserve size).1 = (f.reserve size).2.top := rfl
    exact ⟨by omega, by omega, hbelow⟩

end Frame

namespace Symbol

def regions (s : Symbol) : List Region :=
  match s.map with
  | none => s.addr.toList.map (⟨·, s.facts.size⟩)
  | some slot =>
    slot.keyAddr.toList.map (⟨·, slot.keySize⟩) ++ slot.valueAddr.toList.map (⟨·, s.facts.size⟩)

/-- A symbol that has gained addresses and is otherwise the same. -/
structure Places (s s' : Symbol) : Prop where
  name : s'.name = s.name
  kind : s'.kind = s.kind
  facts : s'.facts = s.facts
  isMap : s'.map.isSome = s.map.isSome
  addr : ∀ a ∈ s.addr, s'.addr = some a
  slot : ∀ slot ∈ s.map, ∀ slot' ∈ s'.map, slot'.keySize = slot.keySize ∧ slot'.id = slot.id ∧
    slot'.provisional = slot.provisional ∧ (∀ a ∈ slot.keyAddr, slot'.keyAddr = some a) ∧
    ∀ a ∈ slot.valueAddr, slot'.valueAddr = some a

namespace Places

variable {s s' s'' : Symbol}

theorem refl (s : Symbol) : s.Places s where
  name := rfl
  kind := rfl
  facts := rfl
  isMap := rfl
  addr _ h := h
  slot slot h slot' h' := by
    obtain rfl : slot = slot' := Option.some.inj (h.symm.trans h')
    exact ⟨rfl, rfl, rfl, fun _ h => h, fun _ h => h⟩

theorem map_none (h : s.Places s') (hs : s.map = none) : s'.map = none := by
  have := h.isMap
  rw [hs] at this
  exact Option.isNone_iff_eq_none.1 (by simpa using this)

theorem map_some (h : s.Places s') {slot : MapSlot} (hs : s.map = some slot) :
    ∃ slot', s'.map = some slot' ∧ slot'.keySize = slot.keySize ∧ slot'.id = slot.id ∧
      slot'.provisional = slot.provisional ∧ (∀ a ∈ slot.keyAddr, slot'.keyAddr = some a) ∧
      ∀ a ∈ slot.valueAddr, slot'.valueAddr = some a := by
  have hm : s'.map.isSome := by rw [h.isMap, hs]; rfl
  obtain ⟨slot', h'⟩ := Option.isSome_iff_exists.1 hm
  exact ⟨slot', h', h.slot slot hs slot' h'⟩

theorem trans (h : s.Places s') (h' : s'.Places s'') : s.Places s'' where
  name := h'.name.trans h.name
  kind := h'.kind.trans h.kind
  facts := h'.facts.trans h.facts
  isMap := h'.isMap.trans h.isMap
  addr a ha := h'.addr a (h.addr a ha)
  slot slot hs slot'' hs'' := by
    obtain ⟨slot', hs', hk, hid, hp, hka, hva⟩ := h.map_some hs
    obtain ⟨hk', hid', hp', hka', hva'⟩ := h'.slot slot' hs' slot'' hs''
    exact ⟨hk'.trans hk, hid'.trans hid, hp'.trans hp, fun a ha => hka' a (hka a ha),
      fun a ha => hva' a (hva a ha)⟩

theorem grows (h : s.Places s') : s.Grows s' where
  name := h.name
  kind := h.kind
  isMap := h.isMap
  keySize slot hs _ slot' hs' := (h.slot slot hs slot' hs').1
  shape sh hsh := .inl (by rw [h.facts]; exact hsh)
  settled hset := by
    refine ⟨⟨by rw [h.facts]; exact hset.1, ?_⟩, by rw [h.facts]⟩
    cases hs : s.map with
    | none =>
      rw [h.map_none hs]
      rfl
    | some slot =>
      obtain ⟨slot', hs', -, -, hp, -⟩ := h.map_some hs
      have := hset.2
      rw [hs] at this
      rw [hs']
      exact hp.trans this

theorem regions_subset (h : s.Places s') : s.regions ⊆ s'.regions := by
  intro r hr
  unfold regions at hr ⊢
  cases hs : s.map with
  | none =>
    rw [hs] at hr
    rw [h.map_none hs, h.facts]
    simp only [List.mem_map, Option.mem_toList] at hr ⊢
    obtain ⟨a, ha, rfl⟩ := hr
    exact ⟨a, h.addr a ha, rfl⟩
  | some slot =>
    obtain ⟨slot', hs', hk, -, -, hka, hva⟩ := h.map_some hs
    rw [hs] at hr
    rw [hs', h.facts]
    simp only [List.mem_append, List.mem_map, Option.mem_toList] at hr ⊢
    rcases hr with ⟨a, ha, rfl⟩ | ⟨a, ha, rfl⟩
    · exact .inl ⟨a, hka a ha, by rw [hk]⟩
    · exact .inr ⟨a, hva a ha, rfl⟩

end Places

end Symbol

namespace Table

def regions (t : Table) : List Region := t.symbols.toList.flatMap Symbol.regions

/-- A table whose symbols have gained addresses. -/
structure Places (t t' : Table) : Prop where
  size : t'.symbols.size = t.symbols.size
  symbols : ∀ (i : Nat) (s : Symbol), t.symbols[i]? = some s →
    ∃ s' : Symbol, t'.symbols[i]? = some s' ∧ s.Places s'
  events : t'.events = t.events

namespace Places

variable {t t' t'' : Table}

theorem refl (t : Table) : t.Places t where
  size := rfl
  symbols _ s h := ⟨s, h, .refl s⟩
  events := rfl

theorem trans (h : t.Places t') (h' : t'.Places t'') : t.Places t'' where
  size := h'.size.trans h.size
  symbols i s hs := by
    obtain ⟨s', hs', hp⟩ := h.symbols i s hs
    obtain ⟨s'', hs'', hp'⟩ := h'.symbols i s' hs'
    exact ⟨s'', hs'', hp.trans hp'⟩
  events := h'.events.trans h.events

theorem grows (h : t.Places t') : t.Grows t' where
  symbols i s hs := by
    obtain ⟨s', hs', hp⟩ := h.symbols i s hs
    exact ⟨s', hs', hp.grows⟩
  events := by
    rw [needsEvents, needsEvents, h.events]
    exact id

theorem names (h : t.Places t') {name : Name} {i : Nat} {s : Symbol} (hn : t.Names name i s) :
    ∃ s', t'.Names name i s' ∧ s.Places s' := by
  obtain ⟨s', hn', -⟩ := h.grows.names hn
  obtain ⟨s'', hs'', hp⟩ := h.symbols i s hn.symbol
  obtain rfl := Option.some.inj (hn'.symbol.symm.trans hs'')
  exact ⟨s', hn', hp⟩

theorem regions_subset (h : t.Places t') : t.regions ⊆ t'.regions := by
  intro r hr
  obtain ⟨s, hs, hr⟩ := List.mem_flatMap.1 hr
  obtain ⟨i, hi⟩ := Array.mem_iff_getElem?.1 (Array.mem_toList_iff.1 hs)
  obtain ⟨s', hs', hp⟩ := h.symbols i s hi
  exact List.mem_flatMap.2 ⟨s', Array.mem_toList_iff.2 (Array.mem_of_getElem? hs'),
    hp.regions_subset hr⟩

end Places

theorem flatMap_modify_perm {α β : Type} {l : List α} {i : Nat} {a : α} {f : α → α}
    {g : α → List β} {new : List β} (ha : l[i]? = some a) (hp : (g (f a)).Perm (new ++ g a)) :
    ((l.modify i f).flatMap g).Perm (new ++ l.flatMap g) := by
  induction l generalizing i with
  | nil => simp at ha
  | cons b l ih =>
    cases i with
    | zero =>
      obtain rfl : b = a := by simpa using ha
      rw [List.modify_zero_cons, List.flatMap_cons, List.flatMap_cons, ← List.append_assoc]
      exact hp.append_right _
    | succ i =>
      rw [List.modify_succ_cons, List.flatMap_cons, List.flatMap_cons]
      have hrest := (ih (by simpa using ha)).append_left (g b)
      refine hrest.trans ?_
      rw [← List.append_assoc, ← List.append_assoc]
      exact List.perm_append_comm.append_right _

theorem regions_modify {t : Table} {i : Nat} {s : Symbol} {f : Symbol → Symbol}
    {new : List Region} (hs : t.symbols[i]? = some s)
    (hp : (f s).regions.Perm (new ++ s.regions)) :
    (t.modify i f).regions.Perm (new ++ t.regions) := by
  rw [regions, modify, Array.toList_modify]
  exact flatMap_modify_perm (by simpa using hs) hp

/-- From a table whose regions fill its frame, together with others, placing has led to a table and
some regions of which the same holds. -/
def Extends (t t' : Table) (rs : List Region) : Prop :=
  ∀ others, Packed t.frame.top (t.regions ++ others) →
    (∀ r ∈ t.regions ++ others, r.size % 8 = 0) →
    (∀ r ∈ t'.regions ++ rs, r.size < 2 ^ 31) →
    Packed t'.frame.top (t'.regions ++ (rs ++ others)) ∧
      ∀ r ∈ t'.regions ++ (rs ++ others), r.size % 8 = 0

/-- The new regions of a table and some others are those that its frame handed out. -/
def Takes (t t' : Table) (rs : List Region) : Prop :=
  ∃ sizes, (t.frame.reserveAll sizes).2 = t'.frame ∧
    (t'.regions ++ rs).Perm ((t.frame.reserveAll sizes).1 ++ t.regions)

/-- A step of placing: the symbols gain addresses and some regions are taken. -/
structure Steps (t t' : Table) (rs : List Region) : Prop where
  places : t.Places t'
  extend : t.Extends t' rs
  takes : t.Takes t' rs

namespace Steps

variable {t t' t'' : Table} {rs qs : List Region}

theorem refl (t : Table) : t.Steps t [] where
  places := .refl t
  extend _ h hm _ := ⟨h, hm⟩
  takes := ⟨[], rfl, by rw [List.append_nil]; exact .refl _⟩

open scoped List in
theorem trans (h : t.Steps t' rs) (h' : t'.Steps t'' qs) : t.Steps t'' (rs ++ qs) where
  places := h.places.trans h'.places
  extend others hpack hmod hsize := by
    have hsub := h'.places.regions_subset
    obtain ⟨h1, hm1⟩ := h.extend others hpack hmod fun r hr => by
      refine hsize r ?_
      rcases List.mem_append.1 hr with hr | hr
      · exact List.mem_append_left _ (hsub hr)
      · exact List.mem_append_right _ (List.mem_append_left _ hr)
    obtain ⟨h2, hm2⟩ := h'.extend (rs ++ others) h1 hm1 fun r hr => by
      refine hsize r ?_
      rcases List.mem_append.1 hr with hr | hr
      · exact List.mem_append_left _ hr
      · exact List.mem_append_right _ (List.mem_append_right _ hr)
    have hperm : (t''.regions ++ (qs ++ (rs ++ others))).Perm
        (t''.regions ++ (rs ++ qs ++ others)) := by
      rw [← List.append_assoc qs]
      exact (List.perm_append_comm.append_right others).append_left _
    exact ⟨h2.perm hperm, fun r hr => hm2 r (hperm.mem_iff.2 hr)⟩
  takes := by
    obtain ⟨ss, hframe, hperm⟩ := h.takes
    obtain ⟨ss', hframe', hperm'⟩ := h'.takes
    refine ⟨ss ++ ss', ?_, ?_⟩ <;> rw [Frame.reserveAll_append, hframe]
    · exact hframe'
    · calc
        t''.regions ++ (rs ++ qs) ~ t''.regions ++ qs ++ rs := by
          rw [List.append_assoc]
          exact List.perm_append_comm.append_left _
        _ ~ (t'.frame.reserveAll ss').1 ++ t'.regions ++ rs := hperm'.append_right rs
        _ ~ (t'.frame.reserveAll ss').1 ++ ((t.frame.reserveAll ss).1 ++ t.regions) := by
          rw [List.append_assoc]
          exact hperm.append_left _
        _ ~ (t.frame.reserveAll ss).1 ++ (t'.frame.reserveAll ss').1 ++ t.regions := by
          rw [← List.append_assoc]
          exact List.perm_append_comm.append_right _

end Steps

end Table

theorem Packed.reserve {f : Frame} {rs : List Region} {size : Nat} (h : Packed f.top rs)
    (hmod : ∀ r ∈ rs, r.size % 8 = 0) (hsize : size % 8 = 0) (hpos : 0 < size)
    (hlt : size < 2 ^ 31) :
    Packed (f.reserve size).2.top (⟨(f.reserve size).1, size⟩ :: rs) := by
  have hmax : max size 1 = size := by omega
  have htop := h.top_mod hmod
  simp only [Frame.reserve, hmax, frameSize_of_lt hsize hlt]
  refine ⟨.cons (fun r hr => ?_) h.disjoint, fun r hr => ?_, fun r hr => ?_, ?_⟩
  · left
    have := (h.bounds r hr).1
    simp only
    omega
  · rcases List.mem_cons.1 hr with rfl | hr
    · have htot := h.total
      have hnn : (0 : Int) ≤ ((rs.map Region.size).sum : Nat) := Int.natCast_nonneg _
      simp only
      omega
    · have := h.bounds r hr
      omega
  · rcases List.mem_cons.1 hr with rfl | hr
    · simp only
      omega
    · exact h.aligned r hr
  · have := h.total
    rw [List.map_cons, List.sum_cons, Int.natCast_add, this]
    dsimp only
    omega

end TraceScript
