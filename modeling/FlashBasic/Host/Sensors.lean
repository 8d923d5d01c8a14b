import FlashBasic.Token

/-!
What an expression can find out about the world outside. A reading may change the state of the
host, as drawing a random number does.
-/

namespace FlashBasic

set_option autoImplicit false

class Sensors (σ : Type) where
  /-- Milliseconds since the start. -/
  millis : σ → Int32 × σ
  random : σ → Int32 × σ
  /-- Supply voltage in millivolts. -/
  battery : σ → Int32 × σ := fun s => (3300, s)
  /-- The level of a pin, or `none` when there is no such pin. -/
  pinRead : (bank : UInt8) → (pin : UInt8) → σ → Option Int32 × σ := fun _ _ s => (none, s)
  /-- A parameter of the radio, or `none` when there is no such parameter. -/
  radioParam : UInt16 → σ → Option Int32 × σ := fun _ s => (none, s)

end FlashBasic
