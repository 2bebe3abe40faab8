import TraceMind.Queue.FileSpec
import TraceMind.Queue.Memory

namespace TraceMind.Queue

theorem WorkQueue.AllAllowed.of_cons {σ : Type} {w : WorkQueue σ}
    {Allowed : Clock × Call → σ → Prop} {s : σ} {c : Clock × Call} {calls : List (Clock × Call)}
    (hc : Allowed c s) (h : w.AllAllowed Allowed (w.call c.1 c.2 s).2 calls) :
    w.AllAllowed Allowed s (c :: calls) := by
  intro pre c' post he
  cases pre with
  | nil =>
    cases he
    exact hc
  | cons c₀ pre =>
    rw [List.cons_append, List.cons.injEq] at he
    obtain ⟨rfl, he⟩ := he
    exact h pre c' post he

def heldCalls : List (Clock × Call) :=
  [(clockAt 0, .put plainTask), (clockAt 0, .lease 1 1000), (clockAt 1, .reschedule 0 5)]

def doubledCalls : List (Clock × Call) :=
  [(clockAt 0, .put plainTask), (clockAt 0, .reschedule 0 0), (clockAt 0, .lease 2 1000)]

end TraceMind.Queue
