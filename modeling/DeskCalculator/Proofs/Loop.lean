/-!
# Loops that end

A loop steps as long as its condition holds.  `LoopEnds continues next s t` says
that the loop does not go on for ever: from `s` it comes to `t` after finitely
many steps, and stops there.

**Results.**
* `LoopEnds.exit`: where a loop stops, its condition does not hold.
* `LoopEnds.invariant`: what every step keeps holds where the loop stops.
-/

namespace DeskCalculator

/-- The loop that starts at `s` stops at `t`. -/
inductive LoopEnds {σ : Type} (continues : σ → Prop) (next : σ → σ) : σ → σ → Prop
  | stop
      {s : σ} (h : ¬continues s) :
      LoopEnds continues next s s
  | step
      {s t : σ} (h : continues s) (rest : LoopEnds continues next (next s) t) :
      LoopEnds continues next s t

namespace LoopEnds

variable {σ : Type} {continues : σ → Prop} {next : σ → σ} {s t : σ}

/-- Where a loop stops, its condition does not hold. -/
theorem exit
    (h : LoopEnds continues next s t) :
    ¬continues t := by
  induction h with
  | stop h => exact h
  | step _ _ ih => exact ih

/-- What every step keeps holds where the loop stops. -/
theorem invariant
    {P : σ → Prop} (h : LoopEnds continues next s t)
    (hstep : ∀ x, continues x → P x → P (next x)) (hs : P s) :
    P t := by
  induction h with
  | stop _ => exact hs
  | step h _ ih => exact ih (hstep _ h hs)

end LoopEnds
end DeskCalculator
