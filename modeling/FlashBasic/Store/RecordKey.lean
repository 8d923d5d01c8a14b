import FlashBasic.Letter

/-!
Keys of records: the autorun mark, numbered settings, and the numbered records of the files `A` to
`Z`. The three kinds never share a key.
-/

namespace FlashBasic

set_option autoImplicit false

abbrev RecordKey := UInt32

namespace RecordKey

/-- Present when the stored program is to start by itself. -/
def autorun : RecordKey := 1

def setting (n : UInt8) : RecordKey := 0x100 + n.toUInt32

def file (name : Letter) (record : UInt16) : RecordKey :=
  (0x100000 + name.slot.val.toUInt32 * 0x10000) ||| record.toUInt32

end RecordKey

end FlashBasic
