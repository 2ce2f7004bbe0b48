import ArithTree.Failure

/-!
# Printing

A run prints one text after the other and may fail in between. What has been printed by then stays
printed.
-/

namespace ArithTree.Command

abbrev Printing := ExceptT Failure (StateM String)

def print (text : String) : Printing Unit := modify (· ++ text)

/-- Goes on with a result, if it is there. -/
def need {α : Type} (result : Except Failure α) : Printing α := ExceptT.mk (pure result)

namespace Printing

variable {α β : Type}

/-- The end, and all that is printed by then, where something has been printed before. -/
def after (p : Printing α) (printed : String) : Except Failure α × String := p.run.run printed

/-- A failure comes before anything is printed. -/
def FailsSilently (p : Printing α) (e : Failure) : Prop := p.after "" = (.error e, "")

def Completes (p : Printing Unit) : Prop := ∃ text, p.after "" = (.ok (), text)

@[simp] theorem need_ok_bind (a : α) (f : α → Printing β) : need (.ok a) >>= f = f a := rfl

@[simp] theorem need_error_bind (e : Failure) (f : α → Printing β) :
    need (.error e) >>= f = throw e := rfl

theorem failsSilently_throw (e : Failure) : (throw e : Printing α).FailsSilently e := rfl

theorem after_bind_of_ok {p : Printing α} {f : α → Printing β} {a : α} {printed text : String}
    (h : p.after printed = (.ok a, text)) : (p >>= f).after printed = (f a).after text := by
  unfold after at h ⊢
  rw [ExceptT.run_bind, StateT.run_bind, h]
  rfl

/-- Where every item can be printed, all of them are. -/
theorem after_forM {items : List α} {f : α → Printing Unit}
    (h : ∀ item printed, ∃ text, (f item).after printed = (.ok (), text)) :
    ∀ printed, ∃ text, (items.forM f).after printed = (.ok (), text) := by
  induction items with
  | nil => exact fun printed => ⟨printed, rfl⟩
  | cons item items ih =>
    intro printed
    obtain ⟨first, hfirst⟩ := h item printed
    obtain ⟨text, hothers⟩ := ih first
    exact ⟨text, (after_bind_of_ok hfirst).trans hothers⟩

end Printing

end ArithTree.Command
