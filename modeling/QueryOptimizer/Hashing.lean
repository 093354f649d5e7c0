/-!
# Hashing

Sixty-four bit hash values of column ids, and their combination into hashes of larger things.
Two properties matter: things that match hash alike, which holds because every hash is a
function of what matching compares, and different column ids hash differently, because each
step of `scramble` can be undone.
-/

namespace QueryOptimizer.Hashing

/-- A one-to-one scrambling of 64-bit words. -/
def scramble (n : UInt64) : UInt64 :=
  let n := n + 0x9e3779b97f4a7c15
  let n := (n ^^^ (n >>> 30)) * 0xbf58476d1ce4e5b9
  let n := (n ^^^ (n >>> 27)) * 0x94d049bb133111eb
  n ^^^ (n >>> 31)

/-- The hash of a number. -/
def ofNat (n : Nat) : UInt64 :=
  scramble n.toUInt64

/-- The left hash turned by five bits, then combined with the right one. The order matters. -/
def combine (left right : UInt64) : UInt64 :=
  ((left <<< 5) ||| (left >>> 59)) ^^^ right

/-- The hash of a named kind of thing with the hashes of its parts. The scrambling keeps
changes in two parts from cancelling each other out further up. -/
def ofParts (kind : String) (parts : List UInt64) : UInt64 :=
  scramble (parts.foldl combine (hash kind))

end QueryOptimizer.Hashing
