/-
# Interrupted queries

A query that is stopped may drop a conflict at the root.  As long as subsumption never makes a
clause whose watches are false at the root, a later query finds that conflict again, and every
answer is right.  Otherwise the conflict may be lost: the solver then answers with an assignment
that is no model.
-/
import Satrap.Solver.RootClosure

namespace Satrap

open Logic

namespace Solver

variable {O : Oracle} {config : SolverConfig} {client : Client} {s s' : Solver}

/-- The operation is not a first query whose subsumption makes a clause whose watches are false at
the root. -/
def SightedOperation (O : Oracle) (operation : Operation) (s : Solver) : Prop :=
  ∀ assumptions limits, operation = .solveAssuming assumptions limits → SightedQuery O s

/-- The clauses of `blindClauses` and some that refute `b` by a decision. -/
def lostClauses : List (List Lit) :=
  [[⟨0, true⟩, ⟨1, true⟩, ⟨2, true⟩, ⟨3, true⟩], [⟨0, false⟩, ⟨1, true⟩],
    [⟨1, false⟩, ⟨4, true⟩], [⟨1, false⟩, ⟨5, true⟩], [⟨4, false⟩, ⟨5, false⟩],
    [⟨2, false⟩], [⟨3, false⟩]]

end Solver

end Satrap
