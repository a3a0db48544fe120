import FieldShow.Mistake.Basic

/-! Results together with the mistakes that were met on the way to them. -/

namespace FieldShow

@[ext]
structure Noted (α : Type) where
  value : α
  mistakes : List Mistake
deriving Repr

namespace Noted

variable {α β : Type}

instance : Monad Noted where
  pure a := ⟨a, []⟩
  bind n f := ⟨(f n.value).value, n.mistakes ++ (f n.value).mistakes⟩

@[simp] theorem value_pure (a : α) : (pure a : Noted α).value = a := rfl

@[simp] theorem mistakes_pure (a : α) : (pure a : Noted α).mistakes = [] := rfl

@[simp] theorem value_bind (n : Noted α) (f : α → Noted β) :
    (n >>= f).value = (f n.value).value := rfl

@[simp] theorem mistakes_bind (n : Noted α) (f : α → Noted β) :
    (n >>= f).mistakes = n.mistakes ++ (f n.value).mistakes := rfl

/-- A result in spite of a mistake. -/
def despite (k : Mistake) (a : α) : Noted α := ⟨a, [k]⟩

def noteIf (c : Prop) [Decidable c] (k : Mistake) : Noted Unit := ⟨(), if c then [k] else []⟩

@[simp] theorem value_despite (k : Mistake) (a : α) : (despite k a).value = a := rfl

@[simp] theorem mistakes_despite (k : Mistake) (a : α) : (despite k a).mistakes = [k] := rfl

@[simp] theorem mistakes_noteIf (c : Prop) [Decidable c] (k : Mistake) :
    (noteIf c k).mistakes = if c then [k] else [] := rfl

end Noted
end FieldShow
