/-
# Open resources

Opening a resource pins its bytes under a number that is not zero and that is never given out
again. Closing it forgets them.
-/
import JavaMachine.Text.Modified
import JavaMachine.Table
import JavaMachine.Throwable

namespace JavaMachine

/-- The open resources, by number. -/
structure OpenResources where
  /-- The number given out last. -/
  last : Int64 := 0
  opened : Table Int64 Bytes := {}

namespace OpenResources

/-- Opens a resource. -/
def add (o : OpenResources) (data : Bytes) : OpenResources × Int64 :=
  let number := o.last + 1
  ({ last := number, opened := o.opened.insert number data }, number)

/-- The failure of using a number under which nothing is open. -/
def unknown (number : Int64) : Throwable :=
  .illegalArgument ("unknown resource handle " ++ toString number.toInt)

/-- The bytes of an open resource. -/
def get (o : OpenResources) (number : Int64) : Except Throwable Bytes :=
  match o.opened.get? number with
  | some data => .ok data
  | none => .error (unknown number)

/-- Closes an open resource. -/
def close (o : OpenResources) (number : Int64) : Except Throwable OpenResources :=
  match o.opened.get? number with
  | some _ => .ok { o with opened := o.opened.erase number }
  | none => .error (unknown number)

end OpenResources

end JavaMachine
