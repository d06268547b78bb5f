/-!
# Dialogues

A dialogue is a computation that may put questions to its surroundings.  It is the
tree of its possible next questions, one branch for every answer, so it always
ends, and it can be watched or cut off between any two questions.
-/

namespace ChainIngest

/-- A computation that may ask; `ρ` tells what a question is answered with. -/
inductive Dialogue (ι : Type) (ρ : ι → Type) (α : Type) where
  | done (result : α)
  /-- Asks, and goes on with the reply. -/
  | ask (question : ι) (next : ρ question → Dialogue ι ρ α)

namespace Dialogue

variable {ι : Type} {ρ : ι → Type} {α β γ σ : Type}

def bind : Dialogue ι ρ α → (α → Dialogue ι ρ β) → Dialogue ι ρ β
  | done a, f => f a
  | ask q next, f => ask q fun reply => (next reply).bind f

instance : Monad (Dialogue ι ρ) where
  pure := done
  bind := bind

theorem bind_done (d : Dialogue ι ρ α) : d.bind done = d := by
  induction d with
  | done a => rfl
  | ask q next ih => exact congrArg (ask q) (funext ih)

theorem bind_assoc (d : Dialogue ι ρ α) (f : α → Dialogue ι ρ β) (g : β → Dialogue ι ρ γ) :
    (d.bind f).bind g = d.bind fun a => (f a).bind g := by
  induction d with
  | done a => rfl
  | ask q next ih => exact congrArg (ask q) (funext ih)

instance : LawfulMonad (Dialogue ι ρ) := LawfulMonad.mk' (Dialogue ι ρ)
  (fun d => bind_done d)
  (fun _ _ => rfl)
  (fun d f g => bind_assoc d f g)

def request (q : ι) : Dialogue ι ρ (ρ q) := ask q done

/-- Holds a dialogue with surroundings `σ` that answer each question, or break the dialogue
off by answering none. -/
def run (answer : (q : ι) → σ → Option (ρ q) × σ) : Dialogue ι ρ α → σ → Option α × σ
  | done a, s => (some a, s)
  | ask q next, s =>
    match answer q s with
    | (some reply, s) => (next reply).run answer s
    | (none, s) => (none, s)

def hold (answer : (q : ι) → σ → ρ q × σ) : Dialogue ι ρ α → σ → α × σ
  | done a, s => (a, s)
  | ask q next, s => let (reply, s) := answer q s; (next reply).hold answer s

end Dialogue

end ChainIngest
