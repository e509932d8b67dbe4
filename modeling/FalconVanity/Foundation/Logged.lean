import Mathlib.Data.List.Basic

/-!
# Computations That Log Events

A logged computation returns a value and the list of the events that happened on the way. A
triple says that every logged event is safe and that the value meets a postcondition, so that
a statement about the intermediate results of a program is a statement about its log.

## Main results

* `Ensures.bind`: the rule of sequencing.
* `Ensures.foldlM`: the rule of loops, with an invariant indexed by the iterations done.
* `mem_log_bind_left`, `mem_log_bind_right`: what a part logs is logged by the whole.
-/

/-- A value and the events that were logged. The events are those of the computation in their
order, which its value does not show. -/
structure Logged (ε : Type*) (α : Type) where
  val : α
  log : List ε

namespace Logged

variable {ε : Type*} {α β : Type}

/-- A computation is followed by one that depends on its value. The logs are put together. -/
instance : Monad (Logged ε) where
  pure a := ⟨a, []⟩
  bind x f := ⟨(f x.val).val, x.log ++ (f x.val).log⟩

/-- Log one event. -/
def emit (e : ε) : Logged ε Unit := ⟨(), [e]⟩

/-- A value by itself is returned. -/
@[simp]
theorem val_pure (a : α) : (pure a : Logged ε α).val = a := rfl

/-- A value by itself logs nothing. -/
@[simp]
theorem log_pure (a : α) : (pure a : Logged ε α).log = [] := rfl

/-- The value of two computations is that of the second one. -/
@[simp]
theorem val_bind (x : Logged ε α) (f : α → Logged ε β) : (x >>= f).val = (f x.val).val := rfl

/-- The log of two computations is that of the first one, followed by that of the second one. -/
@[simp]
theorem log_bind (x : Logged ε α) (f : α → Logged ε β) :
    (x >>= f).log = x.log ++ (f x.val).log := rfl

/-- A computation whose value and log are known, in front of the rest. -/
theorem mk_bind (a : α) (log : List ε) (f : α → Logged ε β) :
    ((⟨a, log⟩ : Logged ε α) >>= f) = ⟨(f a).val, log ++ (f a).log⟩ := rfl

/-- What the first part logs is logged. -/
theorem mem_log_bind_left {e : ε} {x : Logged ε α} (f : α → Logged ε β) (h : e ∈ x.log) :
    e ∈ (x >>= f).log := List.mem_append_left _ h

/-- What the second part logs is logged. -/
theorem mem_log_bind_right {e : ε} {x : Logged ε α} {f : α → Logged ε β}
    (h : e ∈ (f x.val).log) : e ∈ (x >>= f).log := List.mem_append_right _ h

/-- What the first iteration logs is logged by the loop. -/
theorem mem_log_foldlM_cons {ι : Type} {e : ε} {f : β → ι → Logged ε β} {b : β} {i : ι}
    {is : List ι} (h : e ∈ (f b i).log) : e ∈ ((i :: is).foldlM f b).log := by
  rw [List.foldlM_cons]
  exact mem_log_bind_left _ h

/-! ### Triples -/

/-- Every logged event is safe, and the value meets the postcondition. It is a triple without a
precondition: what holds before is a hypothesis. -/
structure Ensures (S : ε → Prop) (x : Logged ε α) (post : α → Prop) : Prop where
  events : ∀ e ∈ x.log, S e
  result : post x.val

variable {S : ε → Prop}

/-- A value by itself is safe. -/
theorem Ensures.pure {a : α} {post : α → Prop} (h : post a) :
    Ensures S (Pure.pure a) post where
  events _ he := absurd he List.not_mem_nil
  result := h

/-- A safe event may be logged. -/
theorem Ensures.emit {e : ε} (h : S e) : Ensures S (Logged.emit e) fun _ => True where
  events e' he' := by
    obtain rfl := List.mem_singleton.mp he'
    exact h
  result := trivial

/-- A weaker postcondition. -/
theorem Ensures.mono {x : Logged ε α} {post post' : α → Prop} (h : Ensures S x post)
    (himp : ∀ a, post a → post' a) : Ensures S x post' where
  events := h.events
  result := himp _ h.result

/-- **Sequencing.** -/
theorem Ensures.bind {x : Logged ε α} {f : α → Logged ε β} {mid : α → Prop} {post : β → Prop}
    (hx : Ensures S x mid) (hf : ∀ a, mid a → Ensures S (f a) post) :
    Ensures S (x >>= f) post where
  events e he := by
    rcases List.mem_append.mp he with h | h
    · exact hx.events e h
    · exact (hf _ hx.result).events e h
  result := (hf _ hx.result).result

/-- **Loops.** An invariant that holds at the start and is kept by each iteration, which knows
how many iterations were done, holds at the end. -/
theorem Ensures.foldlM {ι : Type} {f : β → ι → Logged ε β} (inv : ℕ → β → Prop)
    {l : List ι} {b : β} (hstart : inv 0 b)
    (hstep : ∀ k (hk : k < l.length) b, inv k b → Ensures S (f b l[k]) (inv (k + 1))) :
    Ensures S (l.foldlM f b) (inv l.length) := by
  induction l generalizing b inv with
  | nil => exact Ensures.pure hstart
  | cons i l ih =>
      rw [List.foldlM_cons]
      refine (hstep 0 (Nat.zero_lt_succ _) b hstart).bind fun b' hb' => ?_
      exact ih (fun k => inv (k + 1)) hb'
        fun k hk b hb => hstep (k + 1) (Nat.succ_lt_succ hk) b hb

end Logged
