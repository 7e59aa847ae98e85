import TraceScript.Proofs.Erased
import TraceScript.Proofs.RelabeledFlow

namespace TraceScript

variable (f : MapId → MapId)

def Symbol.rename (s : Symbol) : Symbol :=
  { s with map := s.map.map fun slot => { slot with id := slot.id.map f } }

def Channel.rename : Channel → Channel
  | bound id => bound (f id)
  | c => c

def Table.rename (t : Table) : Table :=
  { t with symbols := t.symbols.map (Symbol.rename f), events := t.events.rename f }

theorem Table.relabel_descriptors (t : Table) : t.relabel (.descriptors f) = t.rename f := by
  have hevents : ∀ c : Channel, c.relabel (.descriptors f) = c.rename f := by
    intro c
    cases c <;> rfl
  rw [relabel, rename, hevents]
  rfl

theorem Probe.place_rename {p p' : Probe} {t t' : Table} (h : p.place.run t = (p', t')) :
    (p.rename f).place.run (t.rename f) = (p'.rename f, t'.rename f) := by
  have hrun := Probe.place_relabel (.descriptors f) h
  rwa [p.relabel_descriptors, p'.relabel_descriptors, t.relabel_descriptors,
    t'.relabel_descriptors] at hrun

/-- Over other descriptors the program of a probe has other descriptors, and is the same otherwise. -/
theorem Flow.ofProbe_rename (t : Table) (p : Probe) :
    ofProbe (t.rename f) (p.rename f) = (ofProbe t p).map (Built.rename f) := by
  have herror : CodeError.relabel (.descriptors f) = id := by
    funext e
    cases e <;> rfl
  have hrun := ofProbe_relabel (.descriptors f) t p
  rw [t.relabel_descriptors, p.relabel_descriptors, herror] at hrun
  rw [hrun]
  cases ofProbe t p <;> rfl

end TraceScript
