import Satrap.Smt.Connectives
import Satrap.Smt.Deciders
import Satrap.Solver.Preservation
import Satrap.Solver.Extension
import Satrap.Smt.RealArithmetic
import Satrap.Smt.Validation
import Satrap.Dimacs.Placement
import Satrap.Smt.Resumption
import Satrap.Smt.Definitional
import Satrap.Smt.Definitions
import Satrap.Solver.Reachable
import Satrap.Solver.Fixpoint
import Satrap.Solver.SameCourse
import Satrap.Solver.Interruption
import Satrap.Solver.Luby
import Satrap.Solver.Ancestry
import Satrap.Solver.Queue
import Satrap.Solver.Heap
import Satrap.Solver.Arena
import Satrap.Solver.ReducerFamily
import Satrap.Logic.Merging
import Satrap.Smt.ArithmeticTheory
import Satrap.Smt.FinalCheck
import Satrap.Smt.Preparation
