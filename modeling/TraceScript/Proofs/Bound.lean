import TraceScript.Compile
import TraceScript.Proofs.Annotated
import TraceScript.Proofs.Placed

namespace TraceScript

open Run

/-- A symbol after its map, if it is one, has been created. -/
def Symbol.Bound (s s' : Symbol) : Prop :=
  match s.map with
  | none => s' = s
  | some slot => ∃ id, s' = { s with map := some { slot with id := some id } }

namespace Symbol.Bound

variable {s s' : Symbol}

theorem grows (h : s.Bound s') : s.Grows s' := by
  unfold Bound at h
  split at h
  · subst h
    exact .refl _
  · rename_i slot hs
    obtain ⟨id, rfl⟩ := h
    refine ⟨rfl, rfl, by rw [hs]; rfl, ?_, fun sh h => .inl h, fun hset => ⟨⟨hset.1, ?_⟩, rfl⟩⟩
    · rintro x hx _ _ ⟨⟩
      obtain rfl := Option.some.inj (hs.symm.trans hx)
      rfl
    · have := hset.2
      rw [hs] at this
      exact this

theorem ready (h : s.Bound s') (hs : s.Sound) : s'.Ready := by
  unfold Bound at h
  split at h
  · rename_i hm
    subst h
    exact ⟨hs.shape, hs.keySize, by rw [hm]; exact nofun⟩
  · rename_i slot hm
    obtain ⟨id, rfl⟩ := h
    refine ⟨hs.shape, ?_, ?_⟩ <;> rintro _ ⟨⟩
    · exact hs.keySize slot hm
    · rfl

theorem regions (h : s.Bound s') (hs : s.Sound) : s'.regions = [] := by
  unfold Bound at h
  split at h
  · rename_i hm
    subst h
    rw [Symbol.regions, hm, hs.unplaced]
    rfl
  · rename_i slot hm
    obtain ⟨id, rfl⟩ := h
    obtain ⟨hk, hv⟩ := hs.noRegions slot hm
    rw [Symbol.regions, hk, hv]
    rfl

end Symbol.Bound

/-- A table after its maps and its channel have been created. -/
structure Table.Bound (t t' : Table) : Prop where
  size : t'.symbols.size = t.symbols.size
  symbols : ∀ (i : Nat) (s : Symbol), t.symbols[i]? = some s →
    ∃ s' : Symbol, t'.symbols[i]? = some s' ∧ s.Bound s'
  frame : t'.frame = t.frame
  channel : t.needsEvents = true → t'.events.id?.isSome
  events : t'.needsEvents = t.needsEvents

namespace Table.Bound

variable {t t' : Table}

theorem grows (h : t.Bound t') : t.Grows t' where
  symbols i s hs := by
    obtain ⟨s', hs', hb⟩ := h.symbols i s hs
    exact ⟨s', hs', hb.grows⟩
  events he := h.events.trans he

theorem symbol_of (h : t.Bound t') {i : Nat} {s' : Symbol} (hs' : t'.symbols[i]? = some s') :
    ∃ s, t.symbols[i]? = some s ∧ s.Bound s' := by
  have hi : i < t.symbols.size := h.size ▸ (Array.getElem?_eq_some_iff.1 hs').1
  obtain ⟨s'', hs'', hb⟩ := h.symbols i _ (Array.getElem?_eq_getElem hi)
  obtain rfl := Option.some.inj (hs'.symm.trans hs'')
  exact ⟨_, Array.getElem?_eq_getElem hi, hb⟩

theorem ready (h : t.Bound t') (ht : t.Sound) : t'.Ready where
  symbols i s' hs' := by
    obtain ⟨s, hs, hb⟩ := h.symbol_of hs'
    exact hb.ready (ht.symbols i s hs)
  channel he := h.channel (h.events.symm.trans he)

theorem regions (h : t.Bound t') (ht : t.Sound) : t'.regions = [] := by
  refine List.flatMap_eq_nil_iff.2 fun s' hs' => ?_
  obtain ⟨i, hi⟩ := Array.mem_iff_getElem?.1 (Array.mem_toList_iff.1 hs')
  obtain ⟨s, hs, hb⟩ := h.symbol_of hi
  exact hb.regions (ht.symbols i s hs)

end Table.Bound

namespace Compile

variable {σ : Type}

theorem orFail_ok {ε α : Type} {wrap : ε → CompileError} {x : Except ε α} {a : α}
    {s s' : Session σ} (h : orFail wrap x s = .ok a s') : x = .ok a ∧ s' = s := by
  cases x with
  | ok b =>
    obtain ⟨rfl, rfl⟩ := estate_pure_ok.1 h
    exact ⟨rfl, rfl⟩
  | error e => cases h

theorem createMaps_ok {k : Kernel σ} {options : Options} {ss ss' : List Symbol}
    {s s' : Session σ} (h : createMaps k options ss s = .ok ss' s') :
    List.Forall₂ Symbol.Bound ss ss' := by
  induction ss generalizing ss' s with
  | nil =>
    rw [createMaps] at h
    obtain ⟨rfl, rfl⟩ := estate_pure_ok.1 h
    exact .nil
  | cons x ss ih =>
    rw [createMaps] at h
    cases hm : x.map with
    | none =>
      rw [hm] at h
      obtain ⟨x', s₁, hx, h₁⟩ := estate_bind_ok.1 h
      obtain ⟨rfl, rfl⟩ := estate_pure_ok.1 hx
      obtain ⟨rest, s₂, hrest, h₂⟩ := estate_bind_ok.1 h₁
      obtain ⟨rfl, rfl⟩ := estate_pure_ok.1 h₂
      exact .cons (by rw [Symbol.Bound, hm]) (ih hrest)
    | some slot =>
      rw [hm] at h
      obtain ⟨id, s₁, -, h₁⟩ := estate_bind_ok.1 h
      obtain ⟨x', s₂, hx, h₂⟩ := estate_bind_ok.1 h₁
      obtain ⟨rfl, rfl⟩ := estate_pure_ok.1 hx
      obtain ⟨rest, s₃, hrest, h₃⟩ := estate_bind_ok.1 h₂
      obtain ⟨rfl, rfl⟩ := estate_pure_ok.1 h₃
      exact .cons (by rw [Symbol.Bound, hm]; exact ⟨id, rfl⟩) (ih hrest)

theorem bindTable_ok {k : Kernel σ} {options : Options} {t t' : Table} {s s' : Session σ}
    (h : bindTable k options t s = .ok t' s') : t.Bound t' := by
  unfold bindTable at h
  obtain ⟨symbols, s₁, hmaps, h₁⟩ := estate_bind_ok.1 h
  have hall := createMaps_ok hmaps
  have hsize : symbols.toArray.size = t.symbols.size := by
    rw [List.size_toArray, ← hall.length_eq, Array.length_toList]
  have hsymbols : ∀ (i : Nat) (x : Symbol), t.symbols[i]? = some x →
      ∃ x' : Symbol, symbols.toArray[i]? = some x' ∧ x.Bound x' := by
    intro i x hx
    obtain ⟨hi, rfl⟩ := Array.getElem?_eq_some_iff.1 hx
    have hi' : i < symbols.length := by rw [← List.size_toArray, hsize]; exact hi
    refine ⟨symbols[i], by simp [hi'], ?_⟩
    have := List.forall₂_iff_get.1 hall
    simpa using this.2 i (by simpa using hi) hi'
  by_cases he : t.needsEvents
  · have he' : ({ t with symbols := symbols.toArray } : Table).needsEvents = true := he
    rw [if_pos he'] at h₁
    obtain ⟨id, s₂, -, h₂⟩ := estate_bind_ok.1 h₁
    obtain ⟨rfl, rfl⟩ := estate_pure_ok.1 h₂
    exact ⟨hsize, hsymbols, rfl, fun _ => rfl, he.symm⟩
  · have he' : ¬({ t with symbols := symbols.toArray } : Table).needsEvents = true := he
    rw [if_neg he'] at h₁
    obtain ⟨rfl, rfl⟩ := estate_pure_ok.1 h₁
    exact ⟨hsize, hsymbols, rfl, fun h => (he h).elim, rfl⟩

end Compile

end TraceScript
