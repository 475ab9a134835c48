import Mathlib.Data.Set.BooleanAlgebra
import Mathlib.Data.Set.Insert
import Mathlib.Logic.Function.Basic

/-! Nested maps. A catalog maps a name to an entry; an entry has some information and
maps keys to items; an item has an index and the set of places where it is found. The
operations replace, drop and mark one entry, and put an item at a place or take it away,
whichever entry it belongs to. -/

/-- An item of an entry: its index and where it is found. -/
structure Catalog.Item (α : Type*) where
  index : ℕ
  places : Set α

structure Catalog.Entry (ι κ α : Type*) where
  info : ι
  items : κ → Option (Catalog.Item α)

abbrev Catalog (ν ι κ α : Type*) := ν → Option (Catalog.Entry ι κ α)

namespace Catalog

variable {ν ι κ α : Type*}

def empty : Catalog ν ι κ α := fun _ => none

/-- The entry of `n` has the item `it` under the key `k`. -/
def Holds (m : Catalog ν ι κ α) (n : ν) (k : κ) (it : Item α) : Prop :=
  ∃ e, m n = some e ∧ e.items k = some it

section Entries

variable [DecidableEq ν] (m : Catalog ν ι κ α) (n : ν)

def put (e : Entry ι κ α) : Catalog ν ι κ α := Function.update m n (some e)

def drop : Catalog ν ι κ α := Function.update m n none

/-- Change the information of one entry. -/
def mark (g : ι → ι) : Catalog ν ι κ α :=
  Function.update m n ((m n).map fun e => { e with info := g e.info })

theorem drop_ne_self : m.drop n ≠ m ↔ m n ≠ none := by
  rw [drop, Ne, Function.update_eq_self_iff, eq_comm]

end Entries

section Places

variable [DecidableEq κ] (m : Catalog ν ι κ α) (k : κ)

/-- Change the places of one item. -/
def Entry.move (g : Set α → Set α) (e : Entry ι κ α) : Entry ι κ α where
  info := e.info
  items := Function.update e.items k ((e.items k).map fun it => ⟨it.index, g it.places⟩)

def move (g : Set α → Set α) : Catalog ν ι κ α := fun n => (m n).map (Entry.move k g)

def addPlace (a : α) : Catalog ν ι κ α := m.move k (insert a)

def removePlace (a : α) : Catalog ν ι κ α := m.move k (· \ {a})

theorem Entry.move_eq_self {k : κ} {g : Set α → Set α} {e : Entry ι κ α} :
    e.move k g = e ↔ ∀ it, e.items k = some it → g it.places = it.places := by
  obtain ⟨info, items⟩ := e
  simp only [Entry.move, Entry.mk.injEq, true_and, Function.update_eq_self_iff]
  cases items k with
  | none => simp
  | some it =>
    obtain ⟨i, places⟩ := it
    simp

theorem move_eq_self {g : Set α → Set α} :
    m.move k g = m ↔ ∀ n it, m.Holds n k it → g it.places = it.places := by
  constructor
  · rintro h n it ⟨e, he, hit⟩
    have hn := congrFun h n
    simp only [move, he, Option.map_some, Option.some.injEq] at hn
    exact Entry.move_eq_self.mp hn it hit
  · intro h
    funext n
    cases he : m n with
    | none => simp [move, he]
    | some e =>
      simp only [move, he, Option.map_some, Option.some.injEq]
      exact Entry.move_eq_self.mpr fun it hit => h n it ⟨e, he, hit⟩

theorem addPlace_eq_self (a : α) :
    m.addPlace k a = m ↔ ∀ n it, m.Holds n k it → a ∈ it.places := by
  simp only [addPlace, move_eq_self, Set.insert_eq_self]

theorem removePlace_eq_self (a : α) :
    m.removePlace k a = m ↔ ∀ n it, m.Holds n k it → a ∉ it.places := by
  simp only [removePlace, move_eq_self, sdiff_eq_left, Set.disjoint_singleton_right]

end Places

end Catalog
