import StepChain.Fault
import StepChain.Flow.Post
import StepChain.Search
import StepChain.Step.Basic
/-!
# Calls

The hook, the steps and the post-processors are the caller's, and a run tells which of them it called.  They are called
in one way only, by `Hook.ask`, `Step.call` and `Post.call`, which answer and leave the call in the trace.  So there is
no answer without its call, and what runs is written over `Traced` and `Run` and keeps no record of its own.

Main statements: `Traced.value_foldlM`, `Run.outcome_bind`, `Run.outcome_mapM`.
-/
namespace StepChain

open Json (Object)

/-- A call to something the caller supplied; a post-processor is told the section it finds. -/
inductive Call where
  | hook (query : Query)
  | step (step : Step) (mapping : Mapping)
  | post (post : Post) (block : Block) (found : Object)

/-- A value with the calls that were made for it, in order. -/
@[ext]
structure Traced (α : Type) where
  calls : List Call
  value : α

namespace Traced

variable {α β : Type}

instance : Monad Traced where
  pure x := ⟨[], x⟩
  bind x f :=
    let y := f x.value
    ⟨x.calls ++ y.calls, y.value⟩

@[simp] theorem calls_pure (x : α) : (pure x : Traced α).calls = [] := rfl

@[simp] theorem value_pure (x : α) : (pure x : Traced α).value = x := rfl

@[simp] theorem calls_bind (x : Traced α) (f : α → Traced β) : (x >>= f).calls = x.calls ++ (f x.value).calls := rfl

@[simp] theorem value_bind (x : Traced α) (f : α → Traced β) : (x >>= f).value = (f x.value).value := rfl

instance : LawfulMonad Traced := LawfulMonad.mk' Traced
  (fun _ => Traced.ext (List.append_nil _) rfl)
  (fun _ _ => rfl)
  (fun _ _ _ => Traced.ext (List.append_assoc _ _ _) rfl)

/-- **The value of a traced fold** is what the fold of the values comes to. -/
theorem value_foldlM (f : β → α → Traced β) : ∀ (xs : List α) (start : β),
    (xs.foldlM f start).value = xs.foldl (fun b x => (f b x).value) start
  | [], _ => rfl
  | x :: xs, start => value_foldlM f xs (f start x).value

theorem calls_foldlM_cons (f : β → α → Traced β) (x : α) (xs : List α) (start : β) :
    ((x :: xs).foldlM f start).calls = (f start x).calls ++ (xs.foldlM f (f start x).value).calls := rfl

/-- A fold whose calls depend on the items alone makes the calls of one item after another. -/
theorem calls_foldlM {f : β → α → Traced β} {g : α → List Call} (h : ∀ b x, (f b x).calls = g x) :
    ∀ (xs : List α) (start : β), (xs.foldlM f start).calls = xs.flatMap g
  | [], _ => rfl
  | x :: xs, start => by rw [calls_foldlM_cons, h, calls_foldlM h xs, List.flatMap_cons]

end Traced

/-- A traced computation that may stop with a fault; the calls made until then remain. -/
abbrev Run (α : Type) := ExceptT SourceFault Traced α

namespace Run

variable {α β : Type}

def calls (x : Run α) : List Call := Traced.calls (ExceptT.run x)

def outcome (x : Run α) : Except SourceFault α := Traced.value (ExceptT.run x)

@[simp] theorem calls_lift (x : Traced α) : calls (liftM x) = x.calls := List.append_nil _

@[simp] theorem outcome_lift (x : Traced α) : outcome (liftM x) = .ok x.value := rfl

@[simp] theorem calls_ofExcept (x : Except SourceFault α) : calls (MonadExcept.ofExcept x) = [] := by
  cases x <;> rfl

@[simp] theorem outcome_ofExcept (x : Except SourceFault α) : outcome (MonadExcept.ofExcept x) = x := by
  cases x <;> rfl

/-- **One computation after another** comes to what the two outcomes come to, one after another. -/
@[simp] theorem outcome_bind (x : Run α) (f : α → Run β) :
    outcome (x >>= f) = x.outcome >>= fun a => (f a).outcome := by
  change (ExceptT.bindCont f (Traced.value (ExceptT.run x))).value = Traced.value (ExceptT.run x) >>= _
  cases Traced.value (ExceptT.run x) <;> rfl

/-- If the first stops, the second makes no calls. -/
theorem calls_bind (x : Run α) (f : α → Run β) : calls (x >>= f) = x.calls ++
    match x.outcome with
    | .ok a => (f a).calls
    | .error _ => [] := by
  unfold calls outcome
  change _ ++ (ExceptT.bindCont f (Traced.value (ExceptT.run x))).calls = _
  cases Traced.value (ExceptT.run x) <;> rfl

theorem calls_bind_of_ok {x : Run α} {a : α} (h : x.outcome = .ok a) (f : α → Run β) :
    calls (x >>= f) = x.calls ++ (f a).calls := by
  rw [calls_bind, h]

@[simp] theorem outcome_bind_pure (x : Run α) (f : α → β) :
    outcome (x >>= fun a => pure (f a)) = x.outcome.map f := by
  rw [outcome_bind]
  cases x.outcome <;> rfl

@[simp] theorem calls_bind_pure (x : Run α) (f : α → β) : calls (x >>= fun a => pure (f a)) = x.calls := by
  rw [calls_bind]
  cases x.outcome <;> exact List.append_nil _

theorem outcome_mapM (f : α → Run β) : ∀ xs : List α, outcome (xs.mapM f) = xs.mapM fun x => (f x).outcome
  | [] => rfl
  | x :: xs => by
    have ih := outcome_mapM f xs
    simp only [List.mapM_cons, outcome_bind, ih]
    rfl

/-- A traversal makes the calls of one item after another, up to the first that stops it. -/
theorem calls_mapM_cons (f : α → Run β) (x : α) (xs : List α) : calls ((x :: xs).mapM f) = (f x).calls ++
    match (f x).outcome with
    | .ok _ => calls (xs.mapM f)
    | .error _ => [] := by
  rw [List.mapM_cons, calls_bind]
  cases (f x).outcome with
  | error e => rfl
  | ok y =>
    dsimp only
    rw [calls_bind_pure]

theorem calls_mapM_of_ok {f : α → Run β} : ∀ {xs : List α}, (∀ x ∈ xs, ∃ y, (f x).outcome = .ok y) →
    calls (xs.mapM f) = xs.flatMap fun x => (f x).calls
  | [], _ => rfl
  | x :: xs, h => by
    obtain ⟨y, hy⟩ := h x List.mem_cons_self
    have ih := calls_mapM_of_ok fun z hz => h z (List.mem_cons_of_mem x hz)
    rw [calls_mapM_cons, hy, List.flatMap_cons, ← ih]

theorem calls_mapM_of_error {f : α → Run β} {x : α} {e : SourceFault} (hx : (f x).outcome = .error e)
    (after : List α) : ∀ {before : List α}, (∀ y ∈ before, ∃ z, (f y).outcome = .ok z) →
    calls ((before ++ x :: after).mapM f) = (before ++ [x]).flatMap fun y => (f y).calls
  | [], _ => by
    rw [List.nil_append, calls_mapM_cons, hx]
    rfl
  | y :: before, h => by
    obtain ⟨z, hz⟩ := h y List.mem_cons_self
    have ih := calls_mapM_of_error hx after fun w hw => h w (List.mem_cons_of_mem y hw)
    rw [List.cons_append, List.cons_append, calls_mapM_cons, hz, List.flatMap_cons, ← ih]

end Run

/-! ### The calls -/

def Hook.ask (hook : Hook) (query : Query) : Traced Verdict := ⟨[.hook query], hook query⟩

def Step.call (step : Step) (m : Mapping) : Traced Json := ⟨[.step step m], step.fragment m⟩

def Post.call (post : Post) (current : Object) (block : Block) : Traced Object :=
  ⟨[.post post block current], post.apply current block⟩

end StepChain
