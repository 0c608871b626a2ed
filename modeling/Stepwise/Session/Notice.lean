import Stepwise.Session.Mode
import Stepwise.Failure

/-! What a session last has to say. -/
namespace Stepwise

inductive Notice where
  | ready
  | switched (mode : Mode)
  | nothingToCompute
  | answered (answer : String)
  | refused (failure : Failure)
  | steppedForward
  | atLastStep
  | steppedBackward
  | atFirstStep
  | jumpedToFirst
  | jumpedToLast
  | playing
  | paused
  | played
  | recalled (position total : Nat)

def Notice.message : Notice → String
  | ready => "Ready!"
  | switched mode => mode.name ++ " mode"
  | nothingToCompute => "Nothing to compute"
  | answered answer => "= " ++ answer
  | refused failure => failure.line
  | steppedForward => "Stepped forward"
  | atLastStep => "Cannot step forward: at the last step"
  | steppedBackward => "Stepped backward"
  | atFirstStep => "Cannot step backward: at the first step"
  | jumpedToFirst => "Jumped to first step"
  | jumpedToLast => "Jumped to last step"
  | playing => "Playing..."
  | paused => "Paused"
  | played => "Playback complete"
  | recalled position total => s!"History {position}/{total}"

end Stepwise
