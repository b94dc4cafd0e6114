/-
When `ksleep` returns. Its goal is the counter plus the milliseconds, in 32
bits: a sum that wraps is a goal already met, and the loop ends at its first
test, however few interrupts have come by then. A goal kept in `eax` is lost to
the first interrupt, the timer's or another, whose stub leaves zero there.
-/
import Ssmos.Waits

namespace Ssmos

/-- A step taken while the loop of `ksleep` waits. -/
def SleepStep (place : Place) (saved : Option UInt32) (s : Kernel) (e : KernelEvent) (s' : Kernel) : Prop :=
  (∃ ticksgoal, s.control = .waiting (.ksleep ticksgoal) saved) ∧ KernelStep place s e s'

section

variable {place : Place} {s s' : Kernel} {e : KernelEvent} {es : List KernelEvent} {saved : Option UInt32}
  {ticksgoal milliseconds : UInt32}

/-- While the loop waits the timer counts, and the loop's test comes out. -/
theorem SleepStep.cases (hw : s.control = .waiting (.ksleep ticksgoal) saved) (h : SleepStep place saved s e s') :
    (e = .timer ∧ checkInterruptsEnabled s.eflags ∧ s' = s.timer place) ∨
      (e = .irq ∧ checkInterruptsEnabled s.eflags ∧ s' = s.irq place 0) ∨
      (e = .turn ∧ s.ticks < ticksgoal ∧ s' = s) ∨ (e = .turn ∧ ¬s.ticks < ticksgoal ∧ s' = s.leave saved) := by
  rcases h.2.waiting hw with ⟨henabled, htimer | hirq | hksync⟩ | hturn
  · exact .inl ⟨htimer.1, henabled, htimer.2⟩
  · exact .inr (.inl ⟨hirq.1, henabled, hirq.2⟩)
  · cases hksync
  · exact .inr (.inr hturn)

end

end Ssmos
