import Mathlib
import TraceScript.Kernel.DryRun
import TraceScript.Proofs.Dialogue

namespace TraceScript

/-- The state of a kernel after some calls. -/
def Kernel.after {σ : Type} (k : Kernel σ) (s : σ) (calls : List Call) : σ :=
  calls.foldl (fun s c => (k.answer c s).state) s

namespace Exchange

/-- The descriptor that a call has got. -/
def descriptor? : Exchange → Option Int
  | ⟨.createMap _, .ok id⟩ => some id.fd
  | ⟨.loadProgram .., .ok h⟩ => some h.fd
  | _ => none

/-- The program that a call has loaded. -/
def loaded? : Exchange → Option ProgramHandle
  | ⟨.loadProgram .., .ok h⟩ => some h
  | _ => none

/-- The name of an event and the number that a call has found for it. -/
def event? : Exchange → Option (String × Nat)
  | ⟨.traceEvent name, .ok n⟩ => some (name, n)
  | _ => none

/-- The attachment that a call has made. -/
def attached? : Exchange → Option (ProgramHandle × Nat)
  | ⟨.attach program event, .ok _⟩ => some (program, event)
  | _ => none

end Exchange

namespace DryRun

/-- The state after some calls to a fresh dry run, with the calls and their results. -/
def history (calls : List Call) : DryRun × List Exchange := kernel.logged.after ({}, []) calls

/-- All that one call may come to. -/
inductive Step (d : DryRun) : Exchange → DryRun → Prop
  | refused (c : Call) (e : KernelError) : Step d ⟨c, .error e⟩ d
  | created (r : MapRequest) :
    Step d ⟨.createMap r, .ok ⟨d.nextDescriptor⟩⟩ { d with maps := d.maps.push r }
  | loaded (name : String) (b : Bytecode) :
    Step d ⟨.loadProgram name b, .ok ⟨d.nextDescriptor⟩⟩
      { d with programs := d.programs.push (name, b.code.size) }
  | known {name : String} {i : Nat} (h : d.events[i]? = some name) :
    Step d ⟨.traceEvent name, .ok (firstEvent + i)⟩ d
  | named {name : String} (h : name ∉ d.events) :
    Step d ⟨.traceEvent name, .ok (firstEvent + d.events.size)⟩ { d with events := d.events.push name }
  | attached {program : ProgramHandle} (event : Nat) (hloaded : 0 < d.programs.size)
    (h : firstDescriptor ≤ program.fd) :
    Step d ⟨.attach program event, .ok ()⟩ { d with attached := d.attached.push (program, event) }

theorem step_answer (d : DryRun) (c : Call) :
    d.Step ⟨c, (kernel.answer c d).result⟩ (kernel.answer c d).state := by
  cases c with
  | createMap r =>
    simp only [kernel, createMap]
    split
    · exact .refused _ _
    · exact .created r
  | loadProgram name b =>
    simp only [kernel, loadProgram]
    split
    · exact .refused _ _
    · split
      · exact .loaded name b
      · exact .refused _ _
  | traceEvent name =>
    simp only [kernel, traceEvent]
    split
    · rename_i i hi
      obtain ⟨hlt, heq, -⟩ := Array.findIdx?_eq_some_iff_getElem.1 hi
      refine .known ?_
      rw [Array.getElem?_eq_getElem hlt, eq_of_beq heq]
    · rename_i hnone
      refine .named fun hmem => ?_
      have hne := Array.findIdx?_eq_none_iff.1 hnone name hmem
      simp at hne
  | attach program event =>
    simp only [kernel, attach]
    split
    · exact .refused _ _
    · rename_i hnot
      rw [not_or, Array.isEmpty_iff_size_eq_zero, Int.not_lt] at hnot
      exact .attached event (Nat.pos_of_ne_zero hnot.1) hnot.2

theorem state_of_error {d : DryRun} {c : Call} {e : KernelError}
    (h : (kernel.answer c d).result = .error e) : (kernel.answer c d).state = d := by
  have hstep := d.step_answer c
  rw [h] at hstep
  generalize (kernel.answer c d).state = d' at hstep
  cases hstep
  rfl

/-- What the calls so far say of the state. -/
structure Accounts (log : List Exchange) (d : DryRun) : Prop where
  descriptors : log.filterMap Exchange.descriptor? =
    (List.range (d.maps.size + d.programs.size)).map fun n : Nat => (firstDescriptor + n : Int)
  loaded : (log.filterMap Exchange.loaded?).length = d.programs.size
  handles : ∀ h ∈ log.filterMap Exchange.loaded?, (firstDescriptor : Int) ≤ h.fd
  events : ∀ x ∈ log.filterMap Exchange.event?, ∃ i, d.events[i]? = some x.1 ∧ x.2 = firstEvent + i
  once : d.events.toList.Nodup
  attached : log.filterMap Exchange.attached? = d.attached.toList
  attachable : ∀ x ∈ d.attached.toList, (firstDescriptor : Int) ≤ x.1.fd

namespace Accounts

variable {log : List Exchange} {d : DryRun}

theorem start : Accounts [] {} where
  descriptors := rfl
  loaded := rfl
  handles := nofun
  events := nofun
  once := List.nodup_nil
  attached := rfl
  attachable := nofun

theorem filterMap_snoc {α : Type} (f : Exchange → Option α) (x : Exchange) :
    (log ++ [x]).filterMap f = log.filterMap f ++ (f x).toList := by
  rw [List.filterMap_append]
  cases hf : f x <;> simp [hf]

theorem firstDescriptor_le_next (d : DryRun) : (firstDescriptor : Int) ≤ d.nextDescriptor := by
  unfold nextDescriptor
  omega

theorem descriptors_snoc (h : Accounts log d) {n : Nat}
    (hn : n = d.maps.size + d.programs.size + 1) :
    log.filterMap Exchange.descriptor? ++ [d.nextDescriptor] =
      (List.range n).map fun n : Nat => (firstDescriptor + n : Int) := by
  rw [hn, List.range_succ, List.map_append, h.descriptors]
  rfl

theorem asked (h : Accounts log d) {x : Exchange} (hd : x.descriptor? = none) (hl : x.loaded? = none)
    (ha : x.attached? = none) {events : Array String} (honce : events.toList.Nodup)
    (hevents : ∀ y ∈ (log ++ [x]).filterMap Exchange.event?,
      ∃ i, events[i]? = some y.1 ∧ y.2 = firstEvent + i) :
    Accounts (log ++ [x]) { d with events } where
  descriptors := by simpa [filterMap_snoc, hd] using h.descriptors
  loaded := by simpa [filterMap_snoc, hl] using h.loaded
  handles := by simpa [filterMap_snoc, hl] using h.handles
  events := hevents
  once := honce
  attached := by simpa [filterMap_snoc, ha] using h.attached
  attachable := h.attachable

theorem step {x : Exchange} {d' : DryRun} (h : Accounts log d) (hstep : d.Step x d') :
    Accounts (log ++ [x]) d' := by
  cases hstep with
  | refused c e =>
    refine h.asked (by cases c <;> rfl) (by cases c <;> rfl) (by cases c <;> rfl) h.once ?_
    have hnone : Exchange.event? ⟨c, .error e⟩ = none := by cases c <;> rfl
    rw [filterMap_snoc, hnone, Option.toList_none, List.append_nil]
    exact h.events
  | created r =>
    refine ⟨?_, ?_, ?_, ?_, h.once, ?_, h.attachable⟩ <;> rw [filterMap_snoc]
    · exact h.descriptors_snoc (by simp; omega)
    all_goals simp only [Exchange.loaded?, Exchange.event?, Exchange.attached?, Option.toList_none,
      List.append_nil]
    · exact h.loaded
    · exact h.handles
    · exact h.events
    · exact h.attached
  | loaded name b =>
    refine ⟨?_, ?_, ?_, ?_, h.once, ?_, h.attachable⟩ <;> rw [filterMap_snoc]
    · exact h.descriptors_snoc (by simp; omega)
    all_goals simp only [Exchange.loaded?, Exchange.event?, Exchange.attached?, Option.toList_none,
      Option.toList_some, List.append_nil]
    · rw [List.length_append, h.loaded, Array.size_push]
      rfl
    · intro handle hmem
      rcases List.mem_append.1 hmem with hmem | hmem
      · exact h.handles handle hmem
      · obtain rfl := List.mem_singleton.1 hmem
        exact firstDescriptor_le_next d
    · exact h.events
    · exact h.attached
  | known hi =>
    refine h.asked rfl rfl rfl h.once fun y hy => ?_
    rw [filterMap_snoc] at hy
    rcases List.mem_append.1 hy with hy | hy
    · exact h.events y hy
    · obtain rfl := List.mem_singleton.1 hy
      exact ⟨_, hi, rfl⟩
  | named hnew =>
    refine h.asked rfl rfl rfl ?_ fun y hy => ?_
    · rw [Array.toList_push, List.nodup_append]
      refine ⟨h.once, List.nodup_singleton _, fun a ha b hb => ?_⟩
      obtain rfl := List.mem_singleton.1 hb
      rintro rfl
      exact hnew (Array.mem_toList_iff.1 ha)
    · rw [filterMap_snoc] at hy
      rcases List.mem_append.1 hy with hy | hy
      · obtain ⟨i, hi, hn⟩ := h.events y hy
        have hlt := (Array.getElem?_eq_some_iff.1 hi).1
        exact ⟨i, by rw [Array.getElem?_push_lt hlt, ← hi, Array.getElem?_eq_getElem hlt], hn⟩
      · obtain rfl := List.mem_singleton.1 hy
        exact ⟨_, Array.getElem?_push_size, rfl⟩
  | attached event hloaded hfd =>
    refine ⟨?_, ?_, ?_, ?_, h.once, ?_, ?_⟩
    case refine_6 =>
      intro y hy
      rw [Array.toList_push] at hy
      rcases List.mem_append.1 hy with hy | hy
      · exact h.attachable y hy
      · obtain rfl := List.mem_singleton.1 hy
        exact hfd
    all_goals
      rw [filterMap_snoc]
      simp only [Exchange.descriptor?, Exchange.loaded?, Exchange.event?, Exchange.attached?,
        Option.toList_none, Option.toList_some, List.append_nil]
    · exact h.descriptors
    · exact h.loaded
    · exact h.handles
    · exact h.events
    · rw [h.attached, Array.toList_push]

theorem after (h : Accounts log d) (calls : List Call) :
    Accounts (kernel.logged.after (d, log) calls).2 (kernel.logged.after (d, log) calls).1 := by
  induction calls generalizing log d with
  | nil => exact h
  | cons c calls ih => exact ih (h.step (d.step_answer c))

theorem isEmpty_iff (h : Accounts log d) : d.programs.isEmpty ↔ log.filterMap Exchange.loaded? = [] := by
  rw [Array.isEmpty_iff_size_eq_zero, ← h.loaded, List.length_eq_zero_iff]

theorem number_eq_iff (h : Accounts log d) {x y : String × Nat}
    (hx : x ∈ log.filterMap Exchange.event?) (hy : y ∈ log.filterMap Exchange.event?) :
    x.2 = y.2 ↔ x.1 = y.1 := by
  obtain ⟨i, hi, hnum⟩ := h.events x hx
  obtain ⟨j, hj, hnum'⟩ := h.events y hy
  rw [← Array.getElem?_toList] at hi hj
  rw [hnum, hnum', Nat.add_left_cancel_iff]
  constructor
  · rintro rfl
    exact Option.some.inj (hi.symm.trans hj)
  · intro hname
    rw [hname] at hi
    exact (List.getElem?_inj (List.getElem?_eq_some_iff.1 hi).1 h.once).1 (hi.trans hj.symm)

end Accounts

theorem history_accounts (calls : List Call) : Accounts (history calls).2 (history calls).1 :=
  Accounts.start.after calls

theorem calls_after (calls : List Call) (d : DryRun) (log : List Exchange) :
    (kernel.logged.after (d, log) calls).2.map Exchange.call = log.map Exchange.call ++ calls := by
  induction calls generalizing d log with
  | nil => exact (List.append_nil _).symm
  | cons c calls ih =>
    have hrest := ih (kernel.answer c d).state (log ++ [⟨c, (kernel.answer c d).result⟩])
    rw [List.map_append, List.append_assoc] at hrest
    exact hrest

/-- The calls up to the first that does not return. -/
def returning (d : DryRun) : List Call → List Call
  | [] => []
  | c :: calls => if d.returns c then c :: returning (kernel.answer c d).state calls else []

theorem nextDescriptor_answer_le (d : DryRun) (c : Call) :
    (kernel.answer c d).state.nextDescriptor ≤ d.nextDescriptor + 1 := by
  have hstep := d.step_answer c
  generalize (kernel.answer c d).state = d' at hstep
  generalize (kernel.answer c d).result = r at hstep
  cases hstep <;> simp only [nextDescriptor, Array.size_push] <;> omega

theorem nextDescriptor_of_returns {d : DryRun} {c : Call} (h : d.returns c = true)
    (hd : d.nextDescriptor ≤ 2 ^ 31) : (kernel.answer c d).state.nextDescriptor ≤ 2 ^ 31 := by
  rw [returns, Bool.or_eq_true, Bool.not_eq_true', exhausted, decide_eq_false_iff_not, beq_iff_eq] at h
  have hnext := d.nextDescriptor_answer_le c
  have hmax : Int32.maxValue.toInt = 2 ^ 31 - 1 := by decide
  rcases h with h | h <;> omega

theorem returns_of_lt {d : DryRun} (h : d.nextDescriptor < 2 ^ 31) (c : Call) :
    d.returns c = true := by
  have hmax : Int32.maxValue.toInt = 2 ^ 31 - 1 := by decide
  have hfree : d.exhausted = false := decide_eq_false (by omega)
  rw [returns, hfree]
  rfl

theorem returns_of_error {d : DryRun} {c : Call} {e : KernelError}
    (h : (kernel.answer c d).result = .error e) : d.returns c = true := by
  rw [returns, state_of_error h, beq_self_eq_true, Bool.or_true]

theorem returns_traceEvent (d : DryRun) (name : String) : d.returns (.traceEvent name) = true := by
  have hkept : (kernel.answer (.traceEvent name) d).state.nextDescriptor = d.nextDescriptor := by
    simp only [kernel, traceEvent]
    split <;> rfl
  rw [returns, hkept, beq_self_eq_true, Bool.or_true]

theorem nextDescriptor_after_returning {d : DryRun} (h : d.nextDescriptor ≤ 2 ^ 31)
    (log : List Exchange) (calls : List Call) :
    (kernel.logged.after (d, log) (d.returning calls)).1.nextDescriptor ≤ 2 ^ 31 := by
  induction calls generalizing d log with
  | nil => exact h
  | cons c calls ih =>
    rw [returning]
    split
    · rename_i hc
      exact ih (nextDescriptor_of_returns hc h) _
    · exact h

theorem returning_cases (d : DryRun) (log : List Exchange) (calls : List Call) :
    d.returning calls = calls ∨ ∃ c rest, calls = d.returning calls ++ c :: rest ∧
      (kernel.logged.after (d, log) (d.returning calls)).1.returns c = false := by
  induction calls generalizing d log with
  | nil => exact .inl rfl
  | cons c calls ih =>
    rw [returning]
    split
    · rcases ih (kernel.answer c d).state (log ++ [⟨c, (kernel.answer c d).result⟩]) with
        heq | ⟨c', rest, heq, hstop⟩
      · exact .inl (congrArg (c :: ·) heq)
      · exact .inr ⟨c', rest, congrArg (c :: ·) heq, hstop⟩
    · rename_i hc
      exact .inr ⟨c, calls, rfl, Bool.eq_false_iff.2 hc⟩

theorem returning_eq_self {d : DryRun} {calls : List Call}
    (h : d.nextDescriptor + calls.length ≤ 2 ^ 31) : d.returning calls = calls := by
  induction calls generalizing d with
  | nil => rfl
  | cons c calls ih =>
    have hnext := d.nextDescriptor_answer_le c
    rw [List.length_cons] at h
    rw [returning, if_pos (returns_of_lt (by omega) c), ih (by omega)]

/-- Descriptors of maps and programs are given out in one increasing sequence, which 32-bit numbers
count, the names of events correspond to their numbers, and whatever fails changes nothing. A
sequence of calls ends early only at one that needs a descriptor beyond the largest. -/
theorem history_identities (calls : List Call) :
    let returned := returning {} calls
    let d := (history returned).1
    let log := (history returned).2
    let descriptors := log.filterMap Exchange.descriptor?
    (returned = calls ∨ ∃ c rest, calls = returned ++ c :: rest ∧ d.returns c = false) ∧
    (firstDescriptor + calls.length ≤ 2 ^ 31 → returned = calls) ∧
    log.map Exchange.call = returned ∧ descriptors.Pairwise (· < ·) ∧
    (∀ (i : Nat) (fd : Int), descriptors[i]? = some fd →
      fd = (Int32.ofNat firstDescriptor + Int32.ofNat i).toInt) ∧
    (∀ x ∈ log.filterMap Exchange.event?, ∀ y ∈ log.filterMap Exchange.event?,
      x.2 = y.2 ↔ x.1 = y.1) ∧
    (∀ name, d.returns (.traceEvent name) = true ∧ ∃ n, (d.traceEvent name).result = .ok n) ∧
    ∀ (c : Call) (e : KernelError), (kernel.answer c d).result = .error e →
      d.returns c = true ∧ (kernel.answer c d).state = d := by
  intro returned d log descriptors
  have haccounts : Accounts log d := history_accounts returned
  have hsequence : descriptors = _ := haccounts.descriptors
  have hbound : d.nextDescriptor ≤ 2 ^ 31 := nextDescriptor_after_returning (by decide) [] calls
  have hshort (h : firstDescriptor + calls.length ≤ 2 ^ 31) : returned = calls := by
    refine returning_eq_self ?_
    have hstart : ({} : DryRun).nextDescriptor = firstDescriptor := rfl
    omega
  refine ⟨returning_cases {} [] calls, hshort, calls_after returned {} [], ?_, fun i fd hi => ?_,
    fun x hx y hy => haccounts.number_eq_iff hx hy, fun name => ⟨returns_traceEvent d name, ?_⟩,
    fun c e he => ⟨returns_of_error he, state_of_error he⟩⟩
  · rw [hsequence]
    refine List.pairwise_map.2 (List.pairwise_lt_range.imp fun {i j} hij => ?_)
    omega
  · rw [hsequence, List.getElem?_map] at hi
    obtain ⟨n, hn, rfl⟩ := Option.map_eq_some_iff.1 hi
    obtain ⟨hlt, rfl⟩ := List.getElem?_eq_some_iff.1 hn
    have hsmall : firstDescriptor + i < 2 ^ 31 := by
      rw [List.length_range] at hlt
      unfold nextDescriptor at hbound
      omega
    rw [List.getElem_range, ← Int32.ofNat_add, Int32.toInt_ofNat_of_lt hsmall]
    rfl
  · unfold traceEvent
    split
    · exact ⟨_, rfl⟩
    · exact ⟨_, rfl⟩

/-- Maps and programs in turn, with a map and a program that are refused in between. -/
def interleaved : List Call :=
  [.createMap ⟨.hash, 8, 8, 16⟩, .traceEvent "open", .createMap ⟨.hash, 0, 8, 16⟩,
    .loadProgram "p" { code := #[.movImm 0 0, .exit], limit := 8, stack := 0 }, .traceEvent "close",
    .loadProgram "q" { code := #[.movImm 0 0], limit := 8, stack := 0 },
    .createMap ⟨.hash, 4, 4, 16⟩, .traceEvent "open"]

theorem interleaved_identities :
    returning {} interleaved = interleaved ∧
    (history interleaved).2.filterMap Exchange.descriptor? = [3, 4, 5] ∧
    (history interleaved).2.filterMap Exchange.event? = [("open", 1), ("close", 2), ("open", 1)] ∧
    ((history interleaved).2.filterMap Exchange.descriptor?).Pairwise (· < ·) ∧
    ((1 : Nat) = 1 ↔ "open" = "open") ∧ ((1 : Nat) = 2 ↔ "open" = "close") ∧
    ((history interleaved).1.attach ⟨2⟩ 1).result = .error (.attach 1) ∧
    ((history interleaved).1.attach ⟨2⟩ 1).state = (history interleaved).1 := by
  have hevents : (history interleaved).2.filterMap Exchange.event? =
      [("open", 1), ("close", 2), ("open", 1)] := by cbv
  have hfails : ((history interleaved).1.attach ⟨2⟩ 1).result = .error (.attach 1) := by cbv
  obtain ⟨-, hall, -, horder, -, hnames, -, hkept⟩ := history_identities interleaved
  rw [hall (by decide)] at horder hnames hkept
  rw [hevents] at hnames
  exact ⟨hall (by decide), by cbv, hevents, horder, hnames ("open", 1) (by simp) ("open", 1) (by simp),
    hnames ("open", 1) (by simp) ("close", 2) (by simp), hfails, (hkept (.attach ⟨2⟩ 1) _ hfails).2⟩

/-- Once some program is loaded, every number from the first descriptor on can be attached, also one
that belongs to a map or to nothing. Before that nothing can. What is attached is what was asked for. -/
theorem attach_iff_any_loaded (calls : List Call) (program : ProgramHandle) (event : Nat) :
    let d := (history calls).1
    let log := (history calls).2
    ((d.attach program event).result = .ok () ↔
      log.filterMap Exchange.loaded? ≠ [] ∧ (firstDescriptor : Int) ≤ program.fd) ∧
    (program ∈ log.filterMap Exchange.loaded? → (d.attach program event).result = .ok ()) ∧
    (∀ e, (d.attach program event).result = .error e →
      e = .attach event ∧ (d.attach program event).state = d) ∧
    d.attached.toList = log.filterMap Exchange.attached? ∧
    ∀ x ∈ d.attached.toList, (firstDescriptor : Int) ≤ x.1.fd := by
  intro d log
  have haccounts : Accounts log d := history_accounts calls
  have hiff : (d.attach program event).result = .ok () ↔
      log.filterMap Exchange.loaded? ≠ [] ∧ (firstDescriptor : Int) ≤ program.fd := by
    rw [Ne, ← haccounts.isEmpty_iff, ← Int.not_lt, ← not_or]
    unfold attach
    split
    · rename_i hnot
      exact ⟨nofun, fun h => (h hnot).elim⟩
    · rename_i hnot
      exact ⟨fun _ => hnot, fun _ => rfl⟩
  refine ⟨hiff, fun hmem => ?_, fun e he => ?_, haccounts.attached.symm, haccounts.attachable⟩
  · exact hiff.2 ⟨List.ne_nil_of_mem hmem, haccounts.handles program hmem⟩
  · unfold attach at he ⊢
    split at he
    · rename_i hnot
      rw [if_pos hnot]
      exact ⟨(Except.error.inj he).symm, rfl⟩
    · cases he

/-- The descriptor of a map is refused before a program is loaded, and accepted after that. -/
theorem lateProgram_attached :
    (((history (interleaved.take 3)).1.attach ⟨3⟩ 1).result = .error (.attach 1) ∧
      ((history (interleaved.take 3)).1.attach ⟨3⟩ 1).state = (history (interleaved.take 3)).1) ∧
    (⟨4⟩ ∈ (history interleaved).2.filterMap Exchange.loaded? ∧
      ((history interleaved).1.attach ⟨4⟩ 1).result = .ok ()) ∧
    ((history interleaved).1.attach ⟨3⟩ 1).result = .ok () := by
  have hfails : ((history (interleaved.take 3)).1.attach ⟨3⟩ 1).result = .error (.attach 1) := by
    cbv
  have hloads : (history interleaved).2.filterMap Exchange.loaded? = [⟨4⟩] := by cbv
  have hloaded : (⟨4⟩ : ProgramHandle) ∈ (history interleaved).2.filterMap Exchange.loaded? := by
    rw [hloads]
    exact List.mem_singleton_self _
  obtain ⟨-, -, hkept, -⟩ := attach_iff_any_loaded (interleaved.take 3) ⟨3⟩ 1
  obtain ⟨-, hissued, -⟩ := attach_iff_any_loaded interleaved ⟨4⟩ 1
  obtain ⟨hiff, -⟩ := attach_iff_any_loaded interleaved ⟨3⟩ 1
  exact ⟨⟨hfails, (hkept _ hfails).2⟩, ⟨hloaded, hissued hloaded⟩,
    hiff.2 ⟨List.ne_nil_of_mem hloaded, by decide⟩⟩

/-- A map can be attached like a program. -/
theorem mapDescriptor_attached : ∃ (calls : List Call) (map : MapId) (event : Nat),
    map.fd ∈ (history calls).2.filterMap Exchange.descriptor? ∧
    ⟨map.fd⟩ ∉ (history calls).2.filterMap Exchange.loaded? ∧
    ((history calls).1.attach ⟨map.fd⟩ event).result = .ok () ∧
    (⟨map.fd⟩, event) ∈ ((history calls).1.attach ⟨map.fd⟩ event).state.attached.toList :=
  ⟨[.createMap ⟨.hash, 8, 8, 16⟩,
    .loadProgram "p" { code := #[.movImm 0 0, .exit], limit := 8, stack := 0 }], ⟨3⟩, 1,
    by decide, by decide, by decide, by decide⟩

end DryRun

end TraceScript
