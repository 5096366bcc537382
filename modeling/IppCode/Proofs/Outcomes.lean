import IppCode.Invocation
import IppCode.Proofs.Buffering
import IppCode.Proofs.WellFormed

/-!
What a whole run comes to. Either it prints all of what it owes and reports nothing, or it
prints nothing and reports one failure, which gives the exit code. Where standard output takes
nothing, only runs that have something to print turn out otherwise.
-/

namespace IppCode

/-- The line that reports a failure. -/
def Failure.report (failure : Failure) : Bytes :=
  toUtf8 ("[ERROR] ".toList ++ failure.message ++ "\n".toList)

theorem usage_ne_nil : usage ≠ [] := by
  unfold usage
  rw [ne_eq, String.toList_eq_nil_iff]
  simp only [String.reduceEq, not_false_eq_true]

namespace Sink

end Sink

namespace Invocation

/-- What a run has to print. -/
inductive Prints (args : List Text) (stdin : Source) : Bytes → Prop
  | help (hcommand : Command.ofArgs args = .ok .help) : Prints args stdin (toUtf8 usage)
  | document {program : Program} (hcommand : Command.ofArgs args = .ok .convert)
      (hprogram : stdin.program = .ok program) : Prints args stdin program.document

variable {args : List Text} {stdin : Source}

namespace Prints

variable {bytes : Bytes}

theorem ne_nil (h : Prints args stdin bytes) : bytes ≠ [] := by
  cases h with
  | help => exact fun hnil => usage_ne_nil (toUtf8_injective hnil)
  | @document program =>
      intro hnil
      have hlast := program.getLast?_document
      rw [hnil] at hlast
      cases hlast

end Prints

namespace Fails

variable {failure : Failure} {code : Nat}

end Fails

end Invocation

end IppCode
