import Voleeo.Crypto.Cipher

/-!
# Ids of stored files

An id becomes a file name. Ids that could leave the storage root are refused
before they reach a path.
-/
namespace Voleeo.Storage

def isIdChar (c : Char) : Bool := c.isAlphanum || c == '_' || c == '-'

def validateId (id : String) : Except VoleeoError Unit :=
  if id.isEmpty ∨ 128 < id.utf8ByteSize then .error (.invalidConfig s!"invalid id: {id.quote}")
  else if id.toList.all isIdChar then .ok ()
  else .error (.invalidConfig s!"invalid id: {id.quote}")

end Voleeo.Storage
