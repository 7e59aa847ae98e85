import TraceScript.Proofs.Chunk
import TraceScript.Proofs.Framed

namespace TraceScript.Flow

def Helper.ranges : Helper → List Region
  | comm addr size => [⟨addr, size⟩]
  | strcmp lhs rhs size => [⟨lhs, size⟩, ⟨rhs, size⟩]
  | out addr size _ => [⟨addr, size⟩]
  | _ => []

namespace Instruction

/-- The parts of the frame that an instruction reads or writes. -/
def ranges (w : World) : Instruction → List Region
  | load _ addr | store _ addr => [⟨addr, 8⟩]
  | zero addr size => [⟨addr, size⟩]
  | bytes addr data => [⟨addr, data.length⟩]
  | copy dest source size => [⟨dest, size⟩, ⟨source, size⟩]
  | update map key value =>
    [⟨key, w.keySize map⟩, ⟨value, w.valueSize map⟩]
  | lookup map key value size => [⟨key, w.keySize map⟩, ⟨value, size⟩]
  | call helper _ => helper.ranges
  | _ => []

/-- Copies do not overlap, maps and channels exist, lookups take whole values, and what only writes
or sends gives no result. -/
def Fits (w : World) : Instruction → Prop
  | copy dest source size => (Region.mk dest size).Disjoint ⟨source, size⟩
  | update map _ _ => (w.created map).isSome
  | lookup map _ _ size => (w.created map).isSome ∧ size = w.valueSize map
  | call (.comm ..) dst => dst = none
  | call (.out _ _ channel) dst => (w.created channel).isSome ∧ dst = none
  | _ => True

/-- An instruction that touches the frame only inside some regions. -/
structure Safe (w : World) (ps : List Region) (i : Instruction) : Prop where
  inside : ∀ r ∈ i.ranges w, ∃ q ∈ ps, r.Inside q
  fits : i.Fits w

theorem Safe.mono {w : World} {ps qs : List Region} {i : Instruction} (h : i.Safe w ps)
    (hsub : ps ⊆ qs) : i.Safe w qs where
  inside r hr := by
    obtain ⟨q, hq, hin⟩ := h.inside r hr
    exact ⟨q, hsub hq, hin⟩
  fits := h.fits

theorem safe_of_untouched {w : World} {ps : List Region} {i : Instruction}
    (hr : i.ranges w = []) (hf : i.Fits w) : i.Safe w ps where
  inside r h := by
    rw [hr] at h
    cases h
  fits := hf

end Instruction

/-- An action adds a piece of code, which is safe if some condition on the frame holds. -/
structure Adds {α : Type} (w : World) (G : Prop) (ps : List Region) (m : Build α) (s : Builder)
    (a : α) (c : Chunk) : Prop where
  emits : Emits m s a c
  safe : G → ∀ i ∈ c.code, i.Safe w ps

namespace Adds

variable {α β : Type} {w : World} {G : Prop} {ps qs : List Region} {s : Builder}

theorem pure (a : α) : Adds w G ps (Pure.pure a) s a {} where
  emits := .pure a
  safe _ := nofun

theorem bind {m : Build α} {f : α → Build β} {a : α} {b : β} {c d : Chunk}
    (h : Adds w G ps m s a c) (h' : Adds w G ps (f a) (s.append c) b d) :
    Adds w G ps (m >>= f) s b (c ++ d) where
  emits := h.emits.bind h'.emits
  safe hG i hi := (List.mem_append.1 hi).elim (h.safe hG i) (h'.safe hG i)

theorem mono {G' : Prop} {m : Build α} {a : α} {c : Chunk} (h : Adds w G ps m s a c) (hG : G' → G)
    (hps : G' → ps ⊆ qs) : Adds w G' qs m s a c where
  emits := h.emits
  safe hG' i hi := (h.safe (hG hG') i hi).mono (hps hG')

theorem sublist {t : Table} {rs rs' : List Region} {m : Build α} {a : α} {c : Chunk}
    (h : Adds w (Framed w t rs) (t.regions ++ rs) m s a c) (hs : rs.Sublist rs') :
    Adds w (Framed w t rs') (t.regions ++ rs') m s a c :=
  h.mono (fun hf => hf.sublist hs) fun _ => ((List.Sublist.refl _).append hs).subset

theorem push {i : Instruction} (hsafe : G → i.Safe w ps) :
    Adds w G ps (Build.push i) s () ⟨[i], []⟩ where
  emits := .push i
  safe hG := List.forall_mem_singleton.2 (hsafe hG)

theorem define {origin : Option Origin} {i : Temp → Instruction}
    (hsafe : G → (i s.count).Safe w ps) :
    Adds w G ps (do
      let dst ← Build.newTemp origin
      Build.push (i dst)
      return dst) s s.count ⟨[i s.count], [{ origin }]⟩ where
  emits := .define origin i
  safe hG := List.forall_mem_singleton.2 (hsafe hG)

end Adds

/-- A run that changes some regions and temporaries from a number on, and leaves the outside in a
given state. -/
structure Evolves (rs : List Region) (n : Nat) (o : Outside) (σ σ' : State) : Prop where
  frame : Memory.ChangedIn rs σ.frame σ'.frame
  temps : ∀ u < n, σ'.temps u = σ.temps u
  outside : σ'.outside = o

namespace Evolves

variable {rs qs ps : List Region} {n m : Nat} {o o' : Outside} {σ σ' σ'' : State}

theorem refl (rs : List Region) (n : Nat) (σ : State) : Evolves rs n σ.outside σ σ where
  frame := .refl rs σ.frame
  temps _ _ := rfl
  outside := rfl

theorem mono (h : Evolves rs n o σ σ') (hsub : rs ⊆ qs) (hm : m ≤ n) : Evolves qs m o σ σ' where
  frame := h.frame.mono hsub
  temps u hu := h.temps u (Nat.lt_of_lt_of_le hu hm)
  outside := h.outside

theorem sublist {ms : List Region} (h : Evolves (ms ++ rs) n o σ σ') (hs : rs.Sublist qs)
    (hm : m ≤ n) : Evolves (ms ++ qs) m o σ σ' :=
  h.mono ((List.Sublist.refl ms).append hs).subset hm

theorem widen (h : Evolves rs n o σ σ') (hin : ∀ r ∈ rs, ∃ q ∈ qs, r.Inside q) :
    Evolves qs n o σ σ' where
  frame := h.frame.widen hin
  temps := h.temps
  outside := h.outside

theorem trans (h : Evolves rs n o σ σ') (h' : Evolves rs n o' σ' σ'') : Evolves rs n o' σ σ'' where
  frame := h.frame.trans h'.frame
  temps u hu := (h'.temps u hu).trans (h.temps u hu)
  outside := h'.outside

theorem write_inside {q : Region} (hq : q ∈ rs) (σ : State) {addr : Int} {data : List UInt8}
    (hin : (Region.mk addr data.length).Inside q) (n : Nat) :
    Evolves rs n σ.outside σ (σ.write addr data) where
  frame := (σ.frame.changedIn_write addr data).widen fun r hr => by
    obtain rfl := List.mem_singleton.1 hr
    exact ⟨q, hq, hin⟩
  temps _ _ := rfl
  outside := rfl

theorem then_write (h : Evolves rs n o σ σ') (dest : Int) {data : List UInt8} {size : Nat}
    (hlen : data.length = size) :
    Evolves (rs ++ [⟨dest, size⟩]) n o σ (σ'.write dest data) := by
  refine (h.mono (List.subset_append_left ..) (Nat.le_refl _)).trans ?_
  rw [← h.outside]
  refine .write_inside (List.mem_append_right _ List.mem_cons_self) σ' ?_ n
  rw [hlen]
  exact .refl _

theorem set (σ : State) (t : Temp) (v : UInt64) (rs : List Region) :
    Evolves rs t σ.outside σ (σ.set t v) where
  frame := .refl rs σ.frame
  temps _ hu := σ.temps_set_of_ne v (Nat.ne_of_lt hu)
  outside := rfl

end Evolves

end TraceScript.Flow
