import LineageVault.Python.Text

/-! # The values of `storage/interface.py` -/

namespace LineageVault
set_option autoImplicit false

structure LedgerEntry (P : Type) where
  seq : ℕ
  eventId : Str
  payload : P
  prevHash : Str
  entryHash : Str

structure AcknowledgedWrite where
  eventId : Str
  idempotencyKey : Str
  acknowledged : Bool
  duplicate : Bool
  deriving DecidableEq, Repr

structure BatchWriteItem (P : Type) where
  idempotencyKey : Str
  eventId : Str
  payload : P

end LineageVault
