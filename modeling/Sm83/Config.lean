import Sm83.Word

/-!
# Hardware models

The models differ in what the boot program leaves in the accumulator, which programs read to tell
them apart. A configuration names the model and says whether a reset starts before or after the boot
program.
-/

namespace Sm83

inductive Model where
  | gb
  | gbc
  | gbp
  | sgb
  deriving DecidableEq

def Model.bootAccumulator : Model → Byte
  | .gb | .sgb => 0x01
  | .gbc => 0x11
  | .gbp => 0xFF

structure Config where
  model : Model := .gb
  /-- Whether a reset leaves the registers as the boot program does instead of zero. -/
  postBoot : Bool := false
  deriving DecidableEq

/-- The configuration whose resets stand for a completed boot. -/
def Config.afterBoot (model : Model) : Config := { model, postBoot := true }

end Sm83
