import MicroKernel.System.Run
import Mathlib.Data.Set.Insert
import Mathlib.Logic.Function.Basic
import Mathlib.Order.Bounds.Basic

/-!
# Pools

A pool hands out places, the least one that is free first.  A place that was handed out holds the
blank contents; it can be written, and given back.

* `Pool.Step` : the calls and what they do;
* `Pool.system` : the calls in any order.
-/

namespace MicroKernel

/-- The places that are held, and what is in the places. -/
structure Pool (ι α : Type*) where
  /-- The places that were handed out and not given back. -/
  held : Set ι
  /-- Their contents. -/
  content : ι → α

namespace Pool

/-- A call. -/
inductive Event (ι α : Type*) where
  /-- A place was asked for. -/
  | alloc (r : Option ι)
  /-- A place is given back. -/
  | free (i : ι)
  /-- A place is written. -/
  | write (i : ι) (a : α)

variable {ι α : Type*} [LinearOrder ι]

/-- The calls, on a pool of places and with the contents of a new place. -/
inductive Step (places : Set ι) (blank : α) : Pool ι α → Event ι α → Pool ι α → Prop where
  | alloc {p : Pool ι α} {i : ι} : IsLeast (places \ p.held) i →
      Step places blank p (.alloc (some i))
        ⟨insert i p.held, Function.update p.content i blank⟩
  | full {p : Pool ι α} : places ⊆ p.held → Step places blank p (.alloc none) p
  | free {p : Pool ι α} {i : ι} : i ∈ p.held →
      Step places blank p (.free i) ⟨p.held \ {i}, p.content⟩
  | write {p : Pool ι α} {i : ι} {a : α} : i ∈ p.held →
      Step places blank p (.write i a) ⟨p.held, Function.update p.content i a⟩

/-- The calls in any order. -/
def system (places : Set ι) (blank : α) : System (Pool ι α) (Event ι α) := ⟨Step places blank⟩

end Pool

end MicroKernel
