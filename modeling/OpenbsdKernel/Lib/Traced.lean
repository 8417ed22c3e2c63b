import Mathlib.Data.List.Basic

/-!
# Programs with the places they read

A program is its value with the list of the places it has read, in their order.
-/
namespace OpenbsdKernel

structure Traced (κ α : Type) where
  value : α
  reads : List κ
  deriving DecidableEq, Repr

namespace Traced

variable {κ α β : Type}

instance : Monad (Traced κ) where
  pure a := ⟨a, []⟩
  bind x f := ⟨(f x.value).value, x.reads ++ (f x.value).reads⟩

instance : LawfulMonad (Traced κ) := LawfulMonad.mk' (Traced κ)
  (fun _ => by simp [Functor.map, bind])
  (fun _ _ => by simp [bind, pure])
  (fun _ _ _ => by simp [bind])

/-- The value of a place. -/
def read (mem : κ → α) (i : κ) : Traced κ α := ⟨mem i, [i]⟩

@[simp] theorem read_value (mem : κ → α) (i : κ) : (read mem i).value = mem i := rfl

@[simp] theorem read_reads (mem : κ → α) (i : κ) : (read mem i).reads = [i] := rfl

@[simp] theorem pure_value (a : α) : (pure a : Traced κ α).value = a := rfl

@[simp] theorem pure_reads (a : α) : (pure a : Traced κ α).reads = [] := rfl

@[simp] theorem bind_value (x : Traced κ α) (f : α → Traced κ β) :
    (x >>= f).value = (f x.value).value := rfl

@[simp] theorem bind_reads (x : Traced κ α) (f : α → Traced κ β) :
    (x >>= f).reads = x.reads ++ (f x.value).reads := rfl

@[simp] theorem map_value (f : α → β) (x : Traced κ α) : (f <$> x).value = f x.value := rfl

@[simp] theorem map_reads (f : α → β) (x : Traced κ α) : (f <$> x).reads = x.reads :=
  List.append_nil _

/-- What is read in a branch. -/
@[simp] theorem ite_reads {c : Prop} [Decidable c] (x y : Traced κ α) :
    (if c then x else y).reads = if c then x.reads else y.reads := apply_ite _ _ _ _

@[simp] theorem ite_value {c : Prop} [Decidable c] (x y : Traced κ α) :
    (if c then x else y).value = if c then x.value else y.value := apply_ite _ _ _ _

end Traced

end OpenbsdKernel
