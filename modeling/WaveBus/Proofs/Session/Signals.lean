import WaveBus.Proofs.Session.History

/-! # The signals of a session

Which signals there are and which one is attached after an operation. Only raising
changes a signal and only attaching changes which one counts; a call of `next` and a
new limit leave both alone.
-/

namespace WaveBus

namespace Session

theorem getElem?_attached (session : Session) :
    session.signals[session.attached]? = some session.isStopped :=
  List.getElem?_eq_getElem session.attached_lt

theorem isStopped_congr {session other : Session} (signals : session.signals = other.signals)
    (attached : session.attached = other.attached) : session.isStopped = other.isStopped := by
  have same := session.getElem?_attached
  rw [signals, attached, other.getElem?_attached] at same
  exact (Option.some.inj same).symm

/-- Attaching a number that no signal has makes a new signal, which is not raised. -/
theorem signals_attach (session : Session) (signal : Nat) :
    (session.attach signal).signals =
      if signal < session.signals.length then session.signals else session.signals ++ [false] := by
  unfold attach
  split <;> rfl

theorem attached_attach (session : Session) (signal : Nat) :
    (session.attach signal).attached =
      if signal < session.signals.length then signal else session.signals.length := by
  unfold attach
  split <;> rfl

@[simp] theorem events_attach (session : Session) (signal : Nat) :
    (session.attach signal).events = session.events := by
  unfold attach
  split <;> rfl

/-- An attached signal that is not raised, old or new, lets the search go on. -/
theorem isStopped_attach {session : Session} {signal : Nat}
    (lowered : session.signals[signal]? ≠ some true) :
    (session.attach signal).isStopped = false := by
  have state := (session.attach signal).getElem?_attached
  rw [attached_attach, signals_attach] at state
  by_cases known : signal < session.signals.length
  · rw [if_pos known, if_pos known] at state
    rw [state] at lowered
    exact Bool.eq_false_iff.2 fun raised => lowered (congrArg some raised)
  · rw [if_neg known, if_neg known, List.getElem?_concat_length] at state
    exact (Option.some.inj state).symm

end Session

end WaveBus
