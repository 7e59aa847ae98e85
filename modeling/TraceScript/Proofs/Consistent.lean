import Mathlib
import TraceScript.Proofs.TypedProbes

namespace TraceScript

open Run

/-- A value, or what a declaration or a compound assignment writes to. -/
inductive Role where
  | value
  | declared
  | assigned
deriving DecidableEq

structure Occurrence where
  role : Role
  node : Node

namespace Node

mutual

/-- The nodes of a tree in the order of typing: parts come before the whole, and a value comes before
the place that it is written to. -/
def occurrences (role : Role) : Node → List Occurrence
  | declaration tag target value =>
    occurrences .value value ++ occurrences .declared target ++
      [⟨role, declaration tag target value⟩]
  | assignment tag op target value =>
    occurrences .value value ++ occurrences .assigned target ++
      [⟨role, assignment tag op target value⟩]
  | var tag name => [⟨role, var tag name⟩]
  | mapAccess tag map keys => allOccurrences keys ++ [⟨role, mapAccess tag map keys⟩]
  | int tag value => [⟨role, int tag value⟩]
  | text tag value => [⟨role, text tag value⟩]
  | call tag function args => allOccurrences args ++ [⟨role, call tag function args⟩]
  | binary tag op lhs rhs =>
    occurrences .value lhs ++ occurrences .value rhs ++ [⟨role, binary tag op lhs rhs⟩]
  | cond tag condition yes no =>
    occurrences .value condition ++ allOccurrences yes ++ allOccurrences no ++
      [⟨role, cond tag condition yes no⟩]
  | unroll tag count body => allOccurrences body ++ [⟨role, unroll tag count body⟩]
  | record tag members => allOccurrences members ++ [⟨role, record tag members⟩]

def allOccurrences : List Node → List Occurrence
  | [] => []
  | n :: ns => occurrences .value n ++ allOccurrences ns

end

theorem mem_allOccurrences {ns : List Node} {o : Occurrence} :
    o ∈ allOccurrences ns ↔ ∃ n ∈ ns, o ∈ n.occurrences .value := by
  induction ns with
  | nil => simp [allOccurrences]
  | cons n ns ih => simp [allOccurrences, ih]

end Node

/-- What is known of a symbol's shape while a tree is typed. -/
inductive Phase where
  | unknown
  | assumed
  | settled (shape : Shape)

namespace Phase

/-- A declaration settles what was unknown or assumed. A compound assignment to something unknown
assumes integers, and every other occurrence has to fit what is known. -/
def next : Phase → Role → Shape → Option Phase
  | unknown, .value, _ => none
  | unknown, .assigned, shape => if shape = .int then some assumed else none
  | unknown, .declared, shape => some (settled shape)
  | assumed, .declared, shape => some (settled shape)
  | assumed, _, shape => if shape = .int then some assumed else none
  | settled known, _, shape => if shape = known then some (settled known) else none

def step (phase : Phase) (o : Occurrence) : Option Phase :=
  o.node.facts.shape.bind (phase.next o.role)

theorem step_eq_some {phase phase' : Phase} {o : Occurrence} (h : phase.step o = some phase') :
    ∃ shape, o.node.facts.shape = some shape ∧ phase.next o.role shape = some phase' :=
  Option.bind_eq_some_iff.1 h

theorem next_assumed {role : Role} (h : role ≠ .declared) (shape : Shape) :
    assumed.next role shape = if shape = .int then some assumed else none := by
  cases role with
  | declared => exact (h rfl).elim
  | value | assigned => rfl

def run (phase : Phase) (os : List Occurrence) : Option Phase := os.foldlM step phase

theorem run_cons {phase phase' : Phase} {o : Occurrence} {os : List Occurrence}
    (h : phase.run (o :: os) = some phase') :
    ∃ shape mid, o.node.facts.shape = some shape ∧ phase.next o.role shape = some mid ∧
      mid.run os = some phase' := by
  rw [run, List.foldlM_cons] at h
  obtain ⟨mid, hstep, hrun⟩ := Option.bind_eq_some_iff.1 h
  obtain ⟨shape, hshape, hnext⟩ := step_eq_some hstep
  exact ⟨shape, mid, hshape, hnext, hrun⟩

theorem run_append (phase : Phase) (os : List Occurrence) (o : Occurrence) :
    phase.run (os ++ [o]) = (phase.run os).bind (step · o) := by
  simp [run, List.foldlM_append]

theorem run_settled {known : Shape} {phase : Phase} {os : List Occurrence}
    (h : (settled known).run os = some phase) :
    phase = settled known ∧ ∀ o ∈ os, o.node.facts.shape = some known := by
  induction os with
  | nil => exact ⟨(Option.some.inj h).symm, nofun⟩
  | cons o os ih =>
    obtain ⟨shape, mid, hshape, hnext, hrun⟩ := run_cons h
    rw [next] at hnext
    split at hnext
    · subst shape
      obtain rfl := Option.some.inj hnext
      obtain ⟨hphase, hall⟩ := ih hrun
      exact ⟨hphase, List.forall_mem_cons.2 ⟨hshape, hall⟩⟩
    · cases hnext

/-- As long as integers are assumed, no occurrence is a declaration. The first declaration settles
the shape for the rest. -/
theorem run_assumed {phase : Phase} {os : List Occurrence} (h : assumed.run os = some phase) :
    (phase = assumed ∧ ∀ o ∈ os, o.node.facts.shape = some .int) ∨
      ∃ (shape : Shape) (before : List Occurrence) (refining : Occurrence) (after : List Occurrence),
        phase = settled shape ∧ os = before ++ refining :: after ∧
        (∀ o ∈ before, o.role ≠ .declared ∧ o.node.facts.shape = some .int) ∧
        refining.role = .declared ∧ ∀ o ∈ refining :: after, o.node.facts.shape = some shape := by
  induction os with
  | nil => exact .inl ⟨(Option.some.inj h).symm, nofun⟩
  | cons o os ih =>
    obtain ⟨shape, mid, hshape, hnext, hrun⟩ := run_cons h
    by_cases hrole : o.role = .declared
    · rw [hrole] at hnext
      obtain rfl := Option.some.inj hnext
      obtain ⟨rfl, hall⟩ := run_settled hrun
      exact .inr ⟨shape, [], o, os, rfl, rfl, nofun, hrole, List.forall_mem_cons.2 ⟨hshape, hall⟩⟩
    · rw [next_assumed hrole] at hnext
      split at hnext
      · subst shape
        obtain rfl := Option.some.inj hnext
        rcases ih hrun with ⟨hphase, hall⟩ |
          ⟨shape, before, refining, after, hphase, rfl, hbefore, hrefining, hafter⟩
        · exact .inl ⟨hphase, List.forall_mem_cons.2 ⟨hshape, hall⟩⟩
        · exact .inr ⟨shape, o :: before, refining, after, hphase, rfl,
            List.forall_mem_cons.2 ⟨⟨hrole, hshape⟩, hbefore⟩, hrefining, hafter⟩
      · cases hnext

end Phase

/-- Occurrences that begin with a compound assignment to something of unknown shape. They are
integers up to a declaration, and have the declared shape from there on. -/
def Occurrence.Refined (shape : Shape) (os : List Occurrence) : Prop :=
  ∃ (first : Occurrence) (before : List Occurrence) (refining : Occurrence)
    (after : List Occurrence), os = first :: before ++ refining :: after ∧ first.role = .assigned ∧
    (∀ o ∈ first :: before, o.role ≠ .declared ∧ o.node.facts.shape = some .int) ∧
    refining.role = .declared ∧ ∀ o ∈ refining :: after, o.node.facts.shape = some shape

/-- What is known of a symbol. -/
def Symbol.phase (s : Symbol) : Phase :=
  match s.facts.shape with
  | none => .unknown
  | some shape => if s.map.any MapSlot.provisional then .assumed else .settled shape

theorem Symbol.Settled.phase {s : Symbol} (h : s.Settled) {shape : Shape}
    (hshape : s.facts.shape = some shape) : s.phase = .settled shape := by
  rw [Symbol.phase, hshape, h.2]
  rfl

theorem Symbol.Sound.phase_cases {s : Symbol} (hs : s.Sound) :
    ∃ shape, s.facts.shape = some shape ∧
      (s.phase = .settled shape ∨ s.phase = .assumed ∧ shape = .int) := by
  obtain ⟨shape, hshape, -⟩ := hs.shape
  refine ⟨shape, hshape, ?_⟩
  cases hp : s.map.any MapSlot.provisional with
  | false => exact .inl (Settled.phase ⟨by rw [hshape]; rfl, hp⟩ hshape)
  | true =>
    obtain ⟨slot, hm, hslot⟩ := (Option.any_eq_true _ _).1 hp
    refine .inr ⟨by rw [phase, hshape, hp]; rfl, ?_⟩
    exact Option.some.inj (hshape.symm.trans (hs.assumed slot hm hslot))

/-- The occurrences that lead to the shape of a symbol all have it, unless it was refined. -/
theorem Symbol.Sound.shapes_of_run {s : Symbol} (hs : s.Sound) {os : List Occurrence}
    (h : Phase.unknown.run os = some s.phase) :
    ∃ shape, s.facts.shape = some shape ∧ os ≠ [] ∧
      ((∀ o ∈ os, o.node.facts.shape = some shape) ∨ Occurrence.Refined shape os) := by
  obtain ⟨shape, hshape, hphase⟩ := hs.phase_cases
  refine ⟨shape, hshape, ?_, ?_⟩
  · rintro rfl
    rcases hphase with h' | ⟨h', -⟩ <;>
    · rw [h'] at h
      cases h
  cases os with
  | nil => exact .inl nofun
  | cons o os =>
    obtain ⟨known, mid, hknown, hnext, hrun⟩ := Phase.run_cons h
    cases hrole : o.role with
    | value =>
      rw [hrole] at hnext
      cases hnext
    | declared =>
      rw [hrole] at hnext
      obtain rfl := Option.some.inj hnext
      obtain ⟨hp, hall⟩ := Phase.run_settled hrun
      rcases hphase with h' | ⟨h', -⟩ <;> rw [h'] at hp <;> cases hp
      exact .inl (List.forall_mem_cons.2 ⟨hknown, hall⟩)
    | assigned =>
      rw [hrole, Phase.next] at hnext
      split at hnext
      · subst known
        obtain rfl := Option.some.inj hnext
        rcases Phase.run_assumed hrun with ⟨hp, hall⟩ |
          ⟨sh, before, refining, after, hp, rfl, hbefore, hrefining, hafter⟩
        · rcases hphase with h' | ⟨-, rfl⟩
          · rw [h'] at hp
            cases hp
          · exact .inl (List.forall_mem_cons.2 ⟨hknown, hall⟩)
        · rcases hphase with h' | ⟨h', -⟩ <;> rw [h'] at hp <;> cases hp
          exact .inr ⟨o, before, refining, after, rfl, hrole,
            List.forall_mem_cons.2 ⟨⟨by rw [hrole]; nofun, hknown⟩, hbefore⟩, hrefining, hafter⟩
      · cases hnext

/-- An occurrence other than a declaration leaves what is known of its symbol as it is. -/
theorem Symbol.Sound.step {s : Symbol} (hs : s.Sound) {o : Occurrence} (hrole : o.role ≠ .declared)
    (hshape : o.node.facts.shape = s.facts.shape) : s.phase.step o = some s.phase := by
  obtain ⟨shape, hs', hphase⟩ := hs.phase_cases
  rw [Phase.step, hshape, hs', Option.bind_some]
  rcases hphase with hp | ⟨hp, rfl⟩
  · rw [hp, Phase.next, if_pos rfl]
  · rw [hp, Phase.next_assumed hrole, if_pos rfl]

/-- The node names the symbol. -/
def Occurrence.of (s : Symbol) (o : Occurrence) : Bool := o.node.root.any s.name.same

namespace Table

variable {t t' : Table} {os : List Occurrence}

/-- What is known of a name. -/
def phaseOf (t : Table) (name : Name) : Phase := (t.find? name).elim .unknown Symbol.phase

/-- The occurrences so far name the symbols of the table, each of them once, and lead to what is
known of every symbol. -/
structure History (t : Table) (os : List Occurrence) : Prop where
  distinct : ∀ (i : Nat) (s : Symbol), t.symbols[i]? = some s → t.lookup s.name = some i
  known : ∀ o ∈ os, ∀ name ∈ o.node.root, (t.lookup name).isSome
  phases : ∀ (i : Nat) (s : Symbol), t.symbols[i]? = some s →
    Phase.unknown.run (os.filter (Occurrence.of s)) = some s.phase

theorem history_empty : History {} [] where
  distinct i s h := by simp at h
  known o h := (List.not_mem_nil h).elim
  phases i s h := by simp at h

theorem Names.same {name : Name} {i : Nat} {s : Symbol} (h : t.Names name i s) :
    s.name.same name = true := by
  obtain ⟨hi, hsame, -⟩ := Array.findIdx?_eq_some_iff_getElem.1 h.lookup
  rwa [(Array.getElem?_eq_some_iff.1 h.symbol).2] at hsame

theorem lookup_congr {a b : Name} (h : a.same b = true) (t : Table) : t.lookup a = t.lookup b := by
  rw [Name.same_iff] at h
  simp only [lookup, Name.same, h]

theorem History.unique (h : t.History os) {i : Nat} {s : Symbol} (hs : t.symbols[i]? = some s)
    {name : Name} (hsame : s.name.same name = true) : t.lookup name = some i :=
  (lookup_congr hsame t).symm.trans (h.distinct i s hs)

theorem History.silent (h : t.History os) {o : Occurrence} (ho : o.node.root = []) :
    t.History (os ++ [o]) where
  distinct := h.distinct
  known o' ho' name hname := by
    rcases List.mem_append.1 ho' with ho' | ho'
    · exact h.known o' ho' name hname
    · rw [List.mem_singleton.1 ho', ho] at hname
      cases hname
  phases i s hs := by
    have hof : o.of s = false := by rw [Occurrence.of, ho]; rfl
    rw [List.filter_append, List.filter_singleton, hof]
    simpa using h.phases i s hs

theorem phaseOf_names {name : Name} {i : Nat} {s : Symbol} (hn : t.Names name i s) :
    t.phaseOf name = s.phase := by
  rw [phaseOf, hn.find]
  rfl

theorem phaseOf_unknown {name : Name} (hl : t.lookup name = none) :
    t.phaseOf name = .unknown := by
  have hfind : t.find? name = none :=
    Array.find?_eq_none.2 fun x hx => by simp [Array.findIdx?_eq_none_iff.1 hl x hx]
  rw [phaseOf, hfind]
  rfl

theorem History.run_old (h : t.History os) {name : Name} {i : Nat} {s : Symbol}
    (hup : t.Updates name i s t') :
    Phase.unknown.run (os.filter (Occurrence.of s)) = some (t.phaseOf name) := by
  cases hup with
  | @existing _ old _ hn hg =>
    have hof : Occurrence.of s = Occurrence.of old := by
      funext o
      rw [Occurrence.of, Occurrence.of, hg.name]
    rw [phaseOf_names hn, hof]
    exact h.phases i old hn.symbol
  | fresh hl hname =>
    have hnone : os.filter (Occurrence.of s) = [] := by
      refine List.filter_eq_nil_iff.2 fun o ho hof => ?_
      obtain ⟨nm, hmem, hsame⟩ := List.any_eq_true.1 hof
      have hknown := h.known o ho nm hmem
      rw [hname] at hsame
      rw [← lookup_congr hsame, hl] at hknown
      cases hknown
    rw [hnone, phaseOf_unknown hl]
    rfl

theorem History.update (h : t.History os) {name : Name} {i : Nat} {s : Symbol} {o : Occurrence}
    (hup : t.Updates name i s t') (ho : o.node.root = [name])
    (hstep : (t.phaseOf name).step o = some s.phase) : t'.History (os ++ [o]) := by
  have hof : ∀ x : Symbol, o.of x = x.name.same name := fun x => by
    rw [Occurrence.of, ho, List.any_cons, List.any_nil, Bool.or_false]
  have hdistinct : ∀ (j : Nat) (x : Symbol), t'.symbols[j]? = some x →
      t'.lookup x.name = some j := by
    intro j x hx
    rcases hup.symbol_cases hx with ⟨rfl, rfl⟩ | hold
    · exact (lookup_congr hup.names.same t').trans hup.names.lookup
    · exact hup.grows.lookup (h.distinct j x hold)
  refine ⟨hdistinct, fun o' ho' nm hnm => ?_, fun j x hx => ?_⟩
  · rcases List.mem_append.1 ho' with ho' | ho'
    · obtain ⟨k, hk⟩ := Option.isSome_iff_exists.1 (h.known o' ho' nm hnm)
      rw [hup.grows.lookup hk]
      rfl
    · rw [List.mem_singleton.1 ho', ho, List.mem_singleton] at hnm
      rw [hnm, hup.names.lookup]
      rfl
  rw [List.filter_append, List.filter_singleton, hof]
  cases hsame : x.name.same name with
  | true =>
    have hj : j = i := Option.some.inj
      ((hdistinct j x hx).symm.trans ((lookup_congr hsame t').trans hup.names.lookup))
    subst hj
    obtain rfl := Option.some.inj (hup.symbol.symm.trans hx)
    rw [cond_true, Phase.run_append, h.run_old hup]
    exact hstep
  | false =>
    rw [cond_false, List.append_nil]
    rcases hup.symbol_cases hx with ⟨rfl, rfl⟩ | hold
    · rw [hup.names.same] at hsame
      cases hsame
    · exact h.phases j x hold

/-- A value whose shape is that of its symbol. -/
def Current (t : Table) (o : Occurrence) : Prop :=
  o.role = .value ∧ (o.node.root = [] ∨ ∃ name i s, o.node.root = [name] ∧ t.Names name i s ∧
    o.node.facts.shape = s.facts.shape)

theorem History.read (h : t.History os) (ht : t.Sound) {o : Occurrence} {name : Name} {i : Nat}
    {s : Symbol} (ho : o.node.root = [name]) (hn : t.Names name i s) (hrole : o.role ≠ .declared)
    (hshape : o.node.facts.shape = s.facts.shape) : t.History (os ++ [o]) := by
  refine h.update hn.updates ho ?_
  rw [phaseOf_names hn]
  exact (ht.names hn).step hrole hshape

theorem History.reads (h : t.History os) (ht : t.Sound) {new : List Occurrence}
    (hnew : ∀ o ∈ new, t.Current o) : t.History (os ++ new) := by
  induction new generalizing os with
  | nil => rwa [List.append_nil]
  | cons o new ih =>
    rw [List.append_cons]
    refine ih ?_ fun o' ho' => hnew o' (List.mem_cons_of_mem _ ho')
    obtain ⟨hrole, hroot | ⟨name, i, s, hroot, hn, hshape⟩⟩ := hnew o List.mem_cons_self
    · exact h.silent hroot
    · exact h.read ht hroot hn (by rw [hrole]; nofun) hshape

end Table

namespace Annotate

open Node (allOccurrences mem_allOccurrences)

theorem current_leaf (t : Table) {n : Node} (hn : n.root = []) : t.Current ⟨.value, n⟩ :=
  ⟨rfl, .inl hn⟩

/-- Typing an expression gives every name the shape that its symbol has. -/
def Visits (n : Node) : Prop :=
  ∀ (s s' : Typing) (n' : Node), s.table.Sound → expression n s = .ok n' s' →
    ∀ o ∈ n'.occurrences .value, s.table.Current o

theorem expressions_visit {check : Shape → Except SemanticError Unit} {ns ns' : List Node}
    {s s' : Typing} (hns : ∀ n ∈ ns, Visits n) (ht : s.table.Sound)
    (h : expressions check ns s = .ok ns' s') : ∀ o ∈ allOccurrences ns', s.table.Current o := by
  induction ns generalizing ns' with
  | nil =>
    rw [expressions] at h
    obtain ⟨rfl, rfl⟩ := estate_pure_ok.1 h
    exact nofun
  | cons n ns ih =>
    rw [expressions] at h
    obtain ⟨m, s₁, hm, h₁⟩ := estate_bind_ok.1 h
    obtain ⟨rfl, -⟩ := reads_expression n _ _ _ ht hm
    obtain ⟨sh, s₂, hsh, h₂⟩ := estate_bind_ok.1 h₁
    obtain ⟨-, rfl⟩ := shapeOf_ok.1 hsh
    obtain ⟨u, s₃, hcheck, h₃⟩ := estate_bind_ok.1 h₂
    obtain ⟨-, rfl⟩ := orFail_ok.1 hcheck
    obtain ⟨ms, s₄, hms, h₄⟩ := estate_bind_ok.1 h₃
    obtain ⟨rfl, rfl⟩ := estate_pure_ok.1 h₄
    intro o ho
    rcases List.mem_append.1 ho with ho | ho
    · exact hns n List.mem_cons_self _ _ _ ht hm o ho
    · exact ih (fun n hn => hns n (List.mem_cons_of_mem _ hn)) hms o ho

theorem expression_visits {n : Node} (h : Expression n) : Visits n := by
  induction h with
  | int _ | text _ =>
    intro s s' n' _ h o ho
    rw [expression] at h
    obtain ⟨rfl, -⟩ := estate_pure_ok.1 h
    rw [List.mem_singleton.1 ho]
    exact current_leaf _ rfl
  | var _ =>
    intro s s' n' ht h o ho
    rw [expression] at h
    obtain ⟨i, s₁, hi, h₁⟩ := estate_bind_ok.1 h
    obtain ⟨sym, -, hm, ⟨rfl, hn⟩ | ⟨⟨⟩, -⟩⟩ := variableIndex_ok ht hi
    obtain ⟨sh, s₂, hsh, h₂⟩ := estate_bind_ok.1 h₁
    obtain ⟨-, hsh⟩ := declaredShape_ok hsh
    obtain ⟨rfl, -⟩ := estate_pure_ok.1 h₂
    rw [hn.getD] at hsh
    rw [List.mem_singleton.1 ho]
    exact ⟨rfl, .inr ⟨_, i, sym, rfl, hn, hsh.symm⟩⟩
  | mapAccess _ _ _ ih =>
    intro s s' n' ht h o ho
    rw [expression] at h
    obtain ⟨keys', s₁, hkeys, h₁⟩ := estate_bind_ok.1 h
    obtain ⟨rfl, -⟩ := reads_expressions notRecord _ _ _ _ ht hkeys
    obtain ⟨i, s₂, hi, h₂⟩ := estate_bind_ok.1 h₁
    obtain ⟨sym, slot, -, hm, -, ⟨rfl, hn⟩ | ⟨⟨⟩, -⟩⟩ := mapIndex_ok ht hi
    obtain ⟨sh, s₃, hsh, h₃⟩ := estate_bind_ok.1 h₂
    obtain ⟨-, hsh⟩ := declaredShape_ok hsh
    obtain ⟨rfl, -⟩ := estate_pure_ok.1 h₃
    rw [hn.getD] at hsh
    rcases List.mem_append.1 ho with ho | ho
    · exact expressions_visit ih ht hkeys o ho
    · rw [List.mem_singleton.1 ho]
      exact ⟨rfl, .inr ⟨_, i, sym, rfl, hn, hsh.symm⟩⟩
  | binary _ _ _ ihl ihr =>
    intro s s' n' ht h o ho
    rw [expression] at h
    obtain ⟨l, s₁, hl, h₁⟩ := estate_bind_ok.1 h
    obtain ⟨rfl, -⟩ := reads_expression _ _ _ _ ht hl
    obtain ⟨r, s₂, hr, h₂⟩ := estate_bind_ok.1 h₁
    obtain ⟨u, s₃, -, h₃⟩ := estate_bind_ok.1 h₂
    obtain ⟨u, s₄, -, h₄⟩ := estate_bind_ok.1 h₃
    obtain ⟨rfl, -⟩ := estate_pure_ok.1 h₄
    rcases List.mem_append.1 ho with ho | ho
    · rcases List.mem_append.1 ho with ho | ho
      · exact ihl _ _ _ ht hl o ho
      · exact ihr _ _ _ ht hr o ho
    · rw [List.mem_singleton.1 ho]
      exact current_leaf _ rfl
  | call _ _ ih =>
    intro s s' n' ht h o ho
    obtain ⟨b, args', shape, storage, -, -, rfl, hcase⟩ := call_args h
    rcases List.mem_append.1 ho with ho | ho
    · rcases hcase with ⟨-, rfl, -⟩ | ⟨-, -, index, value, rfl, -⟩ | ⟨-, -, hargs⟩
      · cases ho
      · rw [List.mem_singleton.1 ho]
        exact current_leaf _ rfl
      · exact expressions_visit ih ht hargs o ho
    · rw [List.mem_singleton.1 ho]
      exact current_leaf _ rfl

theorem Writes.declares {s s' : Typing} {name : Name} {i : Nat} {sym : Symbol} {sh : Shape}
    {o : Occurrence} (h : Writes [] s s' name i sym) (hs : s.table.Stacked) (hset : sym.Settled)
    (hsh : sym.facts.shape = some sh) (hrole : o.role = .declared)
    (hshape : o.node.facts.shape = some sh) :
    (s.table.phaseOf name).step o = some sym.phase := by
  rw [hset.phase hsh, Phase.step, hshape, Option.bind_some, hrole]
  cases hl : s.table.lookup name with
  | none => rw [Table.phaseOf_unknown hl]; rfl
  | some j =>
    have hn := Table.names_of_lookup hl
    set old := s.table.symbols.getD j default
    obtain ⟨x, hn', -⟩ := h.updates.grows.names hn
    obtain ⟨rfl, -⟩ := hn'.unique h.updates.names
    rw [Table.phaseOf_names hn]
    obtain ⟨known, hknown, hphase | ⟨hphase, -⟩⟩ := (hs.names hn).phase_cases
    · rcases h.outcome with ⟨-, hfacts⟩ | ⟨map, shape, old', -, hn', hp, -⟩
      · obtain rfl : sh = known := by
          rw [hfacts old hn, hknown] at hsh
          exact (Option.some.inj hsh).symm
        rw [hphase, Phase.next, if_pos rfl]
      · obtain ⟨-, rfl⟩ := hn'.unique hn
        rw [Symbol.phase, hknown, hp] at hphase
        cases hphase
    · rw [hphase]
      rfl

theorem step_assigned {t : Table} {map : Name} {i : Nat} {sym : Symbol} {slot : MapSlot}
    {o : Occurrence} (ht : t.Sound) (hm : sym.map = some slot) (hsh : sym.facts.shape = some .int)
    (hold : t.Names map i sym ∨ t.lookup map = none ∧ slot.provisional = true)
    (hrole : o.role = .assigned) (hshape : o.node.facts.shape = some .int) :
    (t.phaseOf map).step o = some sym.phase := by
  rcases hold with hn | ⟨hl, hp⟩
  · rw [Table.phaseOf_names hn]
    exact (ht.names hn).step (by rw [hrole]; nofun) (hshape.trans hsh.symm)
  · rw [Table.phaseOf_unknown hl, Phase.step, hshape, Option.bind_some, hrole, Symbol.phase, hsh, hm,
      Option.any_some, hp]
    rfl

/-- Typing a statement adds its occurrences to the history of the table. -/
def Records (f : Annotate Node) : Prop :=
  ∀ (s s' : Typing) (n : Node) (os : List Occurrence), s.table.Stacked → f s = .ok n s' →
    s.table.History os → s'.table.History (os ++ n.occurrences .value)

theorem declaration_records {tag : Tag} {target value : Node} (htarget : Place target)
    (hvalue : Expression value) : Records (declaration tag target value) := by
  intro s s' n os hs h hos
  obtain ⟨value', sh, i, sym, hexp, -, hset, hsh, hcase⟩ := declaration_ok htarget hvalue hs h
  have hos₁ := hos.reads hs.toSound (expression_visits hvalue _ _ _ hs.toSound hexp)
  rcases hcase with ⟨place, name, rfl, hw, -, rfl⟩ |
    ⟨place, map, keys, keys', slot, rfl, hexps, -, hw, -, -, rfl⟩
  · rw [Node.occurrences, Node.occurrences, ← List.append_assoc, ← List.append_assoc]
    exact (hos₁.update hw.updates rfl (hw.declares hs hset hsh rfl rfl)).silent rfl
  · cases htarget with
    | mapAccess _ _ hkeys =>
      have hos₂ := hos₁.reads hs.toSound
        (expressions_visit (fun k hk => expression_visits (hkeys k hk)) hs.toSound hexps)
      rw [Node.occurrences, Node.occurrences]
      simp only [← List.append_assoc]
      exact (hos₂.update hw.updates rfl (hw.declares hs hset hsh rfl rfl)).silent rfl

theorem assignment_records {tag : Tag} {op : ArithOp} {target value : Node}
    (htarget : Place target) (hvalue : Expression value) :
    Records (assignment tag op target value) := by
  intro s s' n os hs h hos
  obtain ⟨value', i, sym, hexp, -, hsh, hcase⟩ := assignment_ok htarget hs h
  have hos₁ := hos.reads hs.toSound (expression_visits hvalue _ _ _ hs.toSound hexp)
  rcases hcase with ⟨place, name, rfl, rfl, hn, -, rfl⟩ |
    ⟨place, map, keys, keys', slot, rfl, hexps, -, hw, hm, -, hold, rfl⟩
  · have hos₂ := hos₁.read
      (o := ⟨.assigned, .var { place with facts := .ofShape .int .stack } name⟩) hs.toSound rfl hn
      nofun hsh.symm
    rw [Node.occurrences, Node.occurrences, ← List.append_assoc, ← List.append_assoc]
    exact hos₂.silent rfl
  · cases htarget with
    | mapAccess _ _ hkeys =>
      have hos₂ := hos₁.reads hs.toSound
        (expressions_visit (fun k hk => expression_visits (hkeys k hk)) hs.toSound hexps)
      rw [Node.occurrences, Node.occurrences]
      simp only [← List.append_assoc]
      exact (hos₂.update hw.updates rfl (step_assigned hs.toSound hm hsh hold rfl rfl)).silent rfl

theorem callStatement_records {tag : Tag} {function : Name} {args : List Node}
    (hargs : ∀ a ∈ args, Expression a) : Records (callStatement tag function args) := by
  intro s s' n os hs h hos
  obtain ⟨b, -, -, ⟨args', rfl, houtput, rfl⟩ | ⟨-, h₁⟩⟩ := callStatement_cases h
  · obtain ⟨htable, ftag, rtag, format, ms, cs, rfl, -, -, -, -, -, values, hsub, hms⟩ :=
      output_ok hargs hs.toSound houtput
    have hcurrent : ∀ o ∈ (Node.call { tag with facts := {} } function
        [.text ftag format, .record rtag ms]).occurrences .value, s.table.Current o := by
      intro o ho
      simp only [Node.occurrences, allOccurrences, List.append_nil, List.mem_append,
        List.mem_singleton] at ho
      rcases ho with (rfl | ho | rfl) | rfl
      · exact current_leaf _ rfl
      · exact expressions_visit (fun v hv => expression_visits (hargs v (hsub v hv))) hs.toSound
          hms o ho
      · exact current_leaf _ rfl
      · exact current_leaf _ rfl
    have hos' := hos.reads hs.toSound hcurrent
    rw [htable]
    exact ⟨hos'.distinct, hos'.known, hos'.phases⟩
  · obtain ⟨rfl, -⟩ := reads_expression _ _ _ _ hs.toSound h₁
    exact hos.reads hs.toSound
      (expression_visits (.call rfl hargs) _ _ _ hs.toSound h₁)

theorem statements_record {ns ns' : List Node} {s s' : Typing} {os : List Occurrence}
    (hns : ∀ n ∈ ns, Statement n) (hrec : ∀ n ∈ ns, Records (statement n))
    (hs : s.table.Stacked) (h : statements ns s = .ok ns' s') (hos : s.table.History os) :
    s'.table.History (os ++ allOccurrences ns') := by
  induction ns generalizing s ns' os with
  | nil =>
    rw [statements] at h
    obtain ⟨rfl, rfl⟩ := estate_pure_ok.1 h
    rwa [allOccurrences, List.append_nil]
  | cons n ns ih =>
    obtain ⟨m, ms, s₁, hm, hms, rfl⟩ := statements_cons_ok h
    have hs₁ := (statement_retraces (hns n List.mem_cons_self) _ _ _ hs hm).1.stacked
    rw [allOccurrences, ← List.append_assoc]
    exact ih (fun k hk => hns k (List.mem_cons_of_mem _ hk))
      (fun k hk => hrec k (List.mem_cons_of_mem _ hk)) hs₁ hms
      (hrec n List.mem_cons_self _ _ _ _ hs hm hos)

theorem statement_records {n : Node} (h : Statement n) : Records (statement n) := by
  induction h with
  | declaration htarget hvalue =>
    rw [statement]
    exact declaration_records htarget hvalue
  | assignment htarget hvalue =>
    rw [statement]
    exact assignment_records htarget hvalue
  | cond hc hyes hno ihy ihn =>
    intro s s' n' os hs h hos
    obtain ⟨c, ys, ns, s₁, s₂, hexp, -, hys, hns, rfl⟩ := cond_ok h
    obtain ⟨rfl, -⟩ := reads_expression _ _ _ _ hs.toSound hexp
    have hs₃ := statements_step hyes hs hys
    have hos₁ := hos.reads hs.toSound (expression_visits hc _ _ _ hs.toSound hexp)
    have hos₂ := statements_record hyes ihy hs hys hos₁
    rw [Node.occurrences]
    simp only [← List.append_assoc]
    exact (statements_record hno ihn hs₃.stacked hns hos₂).silent rfl
  | unroll hbody ih =>
    intro s s' n' os hs h hos
    rw [statement] at h
    obtain ⟨body, s₁, hrun, h₁⟩ := estate_bind_ok.1 h
    obtain ⟨rfl, rfl⟩ := estate_pure_ok.1 h₁
    rw [Node.occurrences, ← List.append_assoc]
    exact (statements_record hbody ih hs hrun hos).silent rfl
  | call _ hargs =>
    rw [statement]
    exact callStatement_records hargs

end Annotate

namespace Node

def isAccess : Node → Bool
  | mapAccess .. => true
  | _ => false

/-- What a node and a table say of each other. A variable has the shape of its symbol, the keys of
an access have the size that its map was given, and what is computed with is an integer. -/
def Fits (t : Table) : Node → Prop
  | var tag name => ∃ i s, t.Names name i s ∧ s.map = none ∧ tag.facts.shape = s.facts.shape
  | mapAccess _ map keys => ∃ i s slot, t.Names map i s ∧ s.map = some slot ∧ 0 < slot.keySize ∧
      slot.keySize = (keys.map fun k => align8 k.facts.size).sum
  | binary _ _ lhs rhs => lhs.facts.shape = some .int ∧ rhs.facts.shape = some .int
  | cond _ condition _ _ => condition.facts.shape = some .int
  | assignment _ _ target value => target.facts.shape = some .int ∧ value.facts.shape = some .int
  | _ => True

theorem fits_mapAccess {t : Table} {tag : Tag} {map : Name} {keys : List Node} {i : Nat}
    {s : Symbol} {slot : MapSlot} (hn : t.Names map i s) (hm : s.map = some slot)
    (hne : slot.keySize ≠ 0) (hk : slot.keySize = Annotate.packedSize keys) :
    (mapAccess tag map keys).Fits t :=
  ⟨i, s, slot, hn, hm, Nat.pos_of_ne_zero hne, hk.trans rfl⟩

theorem fits_of_typed {t : Table} {n : Node} (h : Typed t n) (role : Role) :
    ∀ o ∈ n.occurrences role, o.node.Fits t := by
  induction h generalizing role with
  | int _ | text _ =>
    intro o ho
    rw [List.mem_singleton.1 ho]
    trivial
  | var hn hm hs hf =>
    intro o ho
    rw [List.mem_singleton.1 ho]
    exact ⟨_, _, hn, hm, by rw [hf, hs]; rfl⟩
  | mapAccess hn hm hne _ _ hk _ _ ih =>
    intro o ho
    rcases List.mem_append.1 ho with ho | ho
    · obtain ⟨k, hmem, ho⟩ := mem_allOccurrences.1 ho
      exact ih k hmem _ o ho
    · rw [List.mem_singleton.1 ho]
      exact fits_mapAccess hn hm hne hk
  | binary _ _ hl hr _ ihl ihr =>
    intro o ho
    rcases List.mem_append.1 ho with ho | ho
    · rcases List.mem_append.1 ho with ho | ho
      · exact ihl _ o ho
      · exact ihr _ o ho
    · rw [List.mem_singleton.1 ho]
      exact ⟨hl, hr⟩
  | query _ _ _ | comm _ _ =>
    intro o ho
    rw [List.mem_singleton.1 ho]
    trivial
  | arg _ _ _ _ _ =>
    intro o ho
    rcases List.mem_append.1 ho with ho | ho <;> rw [List.mem_singleton.1 ho] <;> trivial
  | strcmp _ _ _ _ _ _ ihl ihr =>
    intro o ho
    rcases List.mem_append.1 ho with ho | ho
    · obtain ⟨k, hmem, hk⟩ := mem_allOccurrences.1 ho
      rcases List.mem_pair.1 hmem with rfl | rfl
      · exact ihl _ o hk
      · exact ihr _ o hk
    · rw [List.mem_singleton.1 ho]
      trivial

theorem fits_of_typedTarget {t : Table} {sh : Shape} {s : Symbol} {target : Node}
    (h : TypedTarget t sh s target) (hs : s.map = none → s.facts.shape = some sh) (role : Role) :
    ∀ o ∈ target.occurrences role, o.node.Fits t := by
  intro o ho
  cases h with
  | var hn hm hf =>
    rw [List.mem_singleton.1 ho]
    exact ⟨_, _, hn, hm, by rw [hf, hs hm]; rfl⟩
  | mapAccess hn hm hne _ hkeys hk _ =>
    rcases List.mem_append.1 ho with ho | ho
    · obtain ⟨k, hmem, ho⟩ := mem_allOccurrences.1 ho
      exact fits_of_typed (hkeys k hmem) _ o ho
    · rw [List.mem_singleton.1 ho]
      exact fits_mapAccess hn hm hne hk

theorem shape_of_typedTarget {t : Table} {sh : Shape} {s : Symbol} {target : Node}
    (h : TypedTarget t sh s target) : target.facts.shape = some sh := by
  cases h with
  | var _ _ hf | mapAccess _ _ _ _ _ _ hf =>
    rw [facts, Node.tag, hf]
    rfl

theorem fits_of_typedStatement {t : Table} {n : Node} (h : TypedStatement t n) :
    ∀ o ∈ n.occurrences .value, o.node.Fits t := by
  induction h with
  | declaration htarget _ hs hv _ =>
    intro o ho
    rcases List.mem_append.1 ho with ho | ho
    · rcases List.mem_append.1 ho with ho | ho
      · exact fits_of_typed hv _ o ho
      · exact fits_of_typedTarget htarget (fun _ => hs) _ o ho
    · rw [List.mem_singleton.1 ho]
      trivial
  | assignment htarget hs hv hsv =>
    intro o ho
    rcases List.mem_append.1 ho with ho | ho
    · rcases List.mem_append.1 ho with ho | ho
      · exact fits_of_typed hv _ o ho
      · exact fits_of_typedTarget htarget hs _ o ho
    · rw [List.mem_singleton.1 ho]
      exact ⟨shape_of_typedTarget htarget, hsv⟩
  | cond hc hint _ _ ihy ihn =>
    intro o ho
    simp only [occurrences, List.mem_append, mem_allOccurrences, List.mem_singleton] at ho
    rcases ho with ((ho | ⟨k, hk, ho⟩) | ⟨k, hk, ho⟩) | rfl
    · exact fits_of_typed hc _ o ho
    · exact ihy k hk o ho
    · exact ihn k hk o ho
    · exact hint
  | unroll _ ih =>
    intro o ho
    simp only [occurrences, List.mem_append, mem_allOccurrences, List.mem_singleton] at ho
    rcases ho with ⟨k, hk, ho⟩ | rfl
    · exact ih k hk o ho
    · trivial
  | call hc => exact fits_of_typed hc _
  | out _ _ _ _ _ hm _ _ =>
    intro o ho
    simp only [occurrences, allOccurrences, List.append_nil, List.mem_append, mem_allOccurrences,
      List.mem_singleton] at ho
    rcases ho with (rfl | ⟨k, hk, ho⟩ | rfl) | rfl
    · trivial
    · exact fits_of_typed (hm k hk) _ o ho
    · trivial
    · trivial

end Node

/-- A table and the typed body that it belongs to. -/
structure Table.Consistent (t : Table) (body : List Node) : Prop where
  distinct : t.symbols.toList.Pairwise fun a b => a.name.same b.name = false
  sizes : ∀ s ∈ t.symbols, (∃ shape, s.facts.shape = some shape ∧ 0 < shape.size ∧
    shape.size % 8 = 0) ∧ ∀ slot, s.map = some slot → 0 < slot.keySize
  /-- A symbol occurs, and it is a map, with a slot, if and only if it occurs as a map. -/
  kinds : ∀ s ∈ t.symbols, (s.kind = .map ↔ s.map.isSome) ∧
    (∃ o ∈ Node.allOccurrences body, o.of s = true) ∧
    ∀ o ∈ Node.allOccurrences body, o.of s = true → (s.map.isSome ↔ o.node.isAccess = true)
  nodes : ∀ o ∈ Node.allOccurrences body, o.node.Fits t
  /-- All accesses to a map have the shape of its values, but for the integers before the declaration
  that refined it. -/
  accesses : ∀ s ∈ t.symbols, ∀ shape, s.facts.shape = some shape →
    (∀ o ∈ Node.allOccurrences body, o.of s = true → o.node.facts.shape = some shape) ∨
      s.map.isSome ∧
        Occurrence.Refined shape ((Node.allOccurrences body).filter (Occurrence.of s))

namespace Table.History

variable {t : Table} {os : List Occurrence}

theorem pairwise (h : t.History os) :
    t.symbols.toList.Pairwise fun a b => a.name.same b.name = false := by
  refine List.pairwise_iff_getElem.2 fun i j hi hj hij => ?_
  refine Bool.eq_false_iff.2 fun hsame => ?_
  have hs : ∀ (k : Nat) (hk : k < t.symbols.toList.length),
      t.symbols[k]? = some t.symbols.toList[k] := fun k hk => by
    rw [← Array.getElem?_toList, List.getElem?_eq_getElem hk]
  have hi' := h.unique (hs i hi) hsame
  have hj' := h.distinct j _ (hs j hj)
  have := Option.some.inj (hi'.symm.trans hj')
  omega

theorem occurrence_cases (h : t.History os) {i : Nat} {s : Symbol} (hs : t.symbols[i]? = some s)
    {o : Occurrence} (hof : o.of s = true) (hfits : o.node.Fits t) :
    (∃ slot, s.map = some slot ∧ o.node.isAccess = true) ∨
      s.map = none ∧ o.node.isAccess = false ∧ o.node.facts.shape = s.facts.shape := by
  obtain ⟨role, node⟩ := o
  obtain ⟨name, hmem, hsame⟩ := List.any_eq_true.1 hof
  have hlookup := h.unique hs hsame
  have hunique : ∀ {j : Nat} {x : Symbol}, t.Names name j x → x = s := fun hn =>
    (hn.unique ⟨hlookup, hs⟩).2
  cases node with
  | var tag name' =>
    obtain rfl := List.mem_singleton.1 hmem
    obtain ⟨j, x, hn, hm, hshape⟩ := hfits
    obtain rfl := hunique hn
    exact .inr ⟨hm, rfl, hshape⟩
  | mapAccess tag map keys =>
    obtain rfl := List.mem_singleton.1 hmem
    obtain ⟨j, x, slot, hn, hm, -⟩ := hfits
    obtain rfl := hunique hn
    exact .inl ⟨slot, hm, rfl⟩
  | _ => exact (List.not_mem_nil hmem).elim

end Table.History

/-- A probe that is accepted leaves a table that is consistent with the typed tree. -/
theorem Probe.annotate_consistent {source : Source} {probes : List Probe} {p typed : Probe}
    {s : Typing} (hparse : parseScript source = .ok probes) (hp : p ∈ probes)
    (h : p.annotate {} = .ok typed s) : s.table.Consistent typed.body := by
  have hns := parseScript_statements hparse p hp
  obtain ⟨hsound, -, htyped⟩ := annotate_typed hns h
  obtain ⟨body, s₁, hrun, rfl, rfl⟩ := annotate_eq_ok.1 h
  have hist : s₁.table.History (Node.allOccurrences body) :=
    Annotate.statements_record hns (fun n hn => Annotate.statement_records (hns n hn))
      Table.stacked_empty hrun Table.history_empty
  have hfits : ∀ o ∈ Node.allOccurrences body, o.node.Fits s₁.table := by
    intro o ho
    obtain ⟨n, hn, ho⟩ := Node.mem_allOccurrences.1 ho
    exact Node.fits_of_typedStatement (htyped n hn) o ho
  refine ⟨hist.pairwise, fun sym hsym => ?_, fun sym hsym => ?_, hfits, fun sym hsym => ?_⟩
  all_goals obtain ⟨i, hi⟩ := Array.mem_iff_getElem?.1 hsym
  · obtain ⟨shape, hshape, hv⟩ := (hsound.symbols i sym hi).shape
    exact ⟨⟨shape, hshape, hv.size_pos, hv.size_mod⟩,
      fun slot hm => ((hsound.symbols i sym hi).keySize slot hm).1⟩
  · obtain ⟨-, -, hne, -⟩ := (hsound.symbols i sym hi).shapes_of_run (hist.phases i sym hi)
    refine ⟨(hsound.symbols i sym hi).kind, ?_, fun o ho hof => ?_⟩
    · obtain ⟨o, ho⟩ := List.exists_mem_of_ne_nil _ hne
      exact ⟨o, List.mem_filter.1 ho⟩
    · rcases hist.occurrence_cases hi hof (hfits o ho) with ⟨slot, hm, ha⟩ | ⟨hm, ha, -⟩ <;>
        simp [hm, ha]
  · intro shape hshape
    obtain ⟨shape', hshape', -, hall | hrefined⟩ :=
      (hsound.symbols i sym hi).shapes_of_run (hist.phases i sym hi)
    all_goals obtain rfl := Option.some.inj (hshape.symm.trans hshape')
    · exact .inl fun o ho hof => hall o (List.mem_filter.2 ⟨ho, hof⟩)
    · cases hm : sym.map with
      | some slot => exact .inr ⟨rfl, hrefined⟩
      | none =>
        refine .inl fun o ho hof => ?_
        rcases hist.occurrence_cases hi hof (hfits o ho) with ⟨slot, hm', -⟩ | ⟨-, -, heq⟩
        · rw [hm] at hm'
          cases hm'
        · exact heq.trans hshape

/-- A map that is assumed to hold integers, also while it is declared to hold strings. -/
def refinedTally : Source where
  name := "refined"
  lines := ["probe p \x7b m[1] += 2; m[m[1]] = \"abcdefgh\"; x = m[3]; ",
    "if (strcmp(x, M[1])) \x7b n[x, pid()] += 1; \x7d \x7d"]

theorem Probe.refinedTally_consistent : ∃ probes p typed s, parseScript refinedTally = .ok probes ∧
    p ∈ probes ∧ p.annotate {} = .ok typed s ∧
    (s.table.symbols.toList.map fun x => (x.facts.shape, x.map.map MapSlot.keySize)) =
      [(some ⟨.str, 16⟩, some 8), (some ⟨.str, 16⟩, none), (some .int, some 24)] ∧
    s.table.Consistent typed.body := by
  have htyped : ∃ probes p typed s, parseScript refinedTally = .ok probes ∧ p ∈ probes ∧
      p.annotate {} = .ok typed s ∧
      (s.table.symbols.toList.map fun x => (x.facts.shape, x.map.map MapSlot.keySize)) =
        [(some ⟨.str, 16⟩, some 8), (some ⟨.str, 16⟩, none), (some .int, some 24)] := by
    refine ⟨?_, ?_, ?_, ?_, ?_, ?_, ?_, ?_⟩
    rotate_left 4
    · conv => lhs; cbv
    · exact List.mem_cons_self
    · conv => lhs; cbv
    · rfl
  obtain ⟨probes, p, typed, s, hparse, hp, h, hsymbols⟩ := htyped
  exact ⟨probes, p, typed, s, hparse, hp, h, hsymbols, annotate_consistent hparse hp h⟩

end TraceScript
