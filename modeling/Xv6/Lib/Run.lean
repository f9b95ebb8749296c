import Xv6.Lib.Hoare

/-!
# Runs of a system

A system is a program `step e` for every event `e`; an event that is not enabled leaves the state as
it is.  `Along step ok es s` says that every event of the run from `s` happens in a state in which
`ok` allows it; `Along.wp_run` turns what one allowed step keeps into what a run keeps.
-/

namespace Xv6.Lib

variable {σ ε ι : Type} {step : ι → Prog σ ε PUnit} {es : List ι} {s s₀ : σ} {ok : σ → ι → Prop}
  {I : σ → Prop} {E : ε → σ → Prop}

def run (step : ι → Prog σ ε PUnit) (es : List ι) : Prog σ ε PUnit := forM es step

/-- Each event of the run happens in a state in which `ok` allows it. -/
def Along (step : ι → Prog σ ε PUnit) (ok : σ → ι → Prop) : List ι → σ → Prop
  | [], _ => True
  | e :: es, s => ok s e ∧ wp (step e) (fun _ => Along step ok es) (fun _ _ => True) s

instance decidableWp {α : Type} (m : Prog σ ε α) (Q : α → σ → Prop) (E : ε → σ → Prop)
    [∀ a s, Decidable (Q a s)] [∀ e s, Decidable (E e s)] (s : σ) : Decidable (wp m Q E s) :=
  match h : exec m s with
  | (.ok a, s') => decidable_of_iff (Q a s') (by unfold wp; rw [h])
  | (.error e, s') => decidable_of_iff (E e s') (by unfold wp; rw [h])

instance decidableAlong (step : ι → Prog σ ε PUnit) (ok : σ → ι → Prop)
    [∀ s e, Decidable (ok s e)] : ∀ es s, Decidable (Along step ok es s)
  | [], _ => inferInstanceAs (Decidable True)
  | e :: es, s =>
      @instDecidableAnd (ok s e) _ inferInstance
        (@decidableWp _ _ _ (step e) (fun _ => Along step ok es) (fun _ _ => True)
          (fun _ => decidableAlong step ok es) (fun _ _ => inferInstance) s)

theorem along_of_forall (h : ∀ s e, ok s e) : ∀ (es : List ι) (s : σ), Along step ok es s
  | [], _ => trivial
  | e :: es, s =>
      ⟨h s e, wp_mono (wp_exec (step e) s) (fun _ s' _ => along_of_forall h es s') fun _ _ _ =>
        trivial⟩

theorem along_of_forall_mem {ok : ι → Prop} :
    ∀ {es : List ι} (s : σ), (∀ e ∈ es, ok e) → Along step (fun _ => ok) es s
  | [], _, _ => trivial
  | e :: es, s, h => by
      refine ⟨h e (by simp), wp_mono (wp_exec (step e) s) (fun _ s' _ => ?_) fun _ _ _ => trivial⟩
      exact along_of_forall_mem s' fun e' mem => h e' (by simp [mem])

theorem Along.and {ok' : σ → ι → Prop} :
    ∀ {es : List ι} {s : σ}, Along step ok es s → Along step ok' es s →
      Along step (fun s e => ok s e ∧ ok' s e) es s
  | [], _, _, _ => trivial
  | _ :: _, _, h, h' =>
      ⟨⟨h.1, h'.1⟩, wp_mono (wp_and h.2 h'.2) (fun _ _ both => both.1.and both.2) fun _ _ _ => trivial⟩

theorem Along.last {e : ι} {s₁ : σ} :
    ∀ {es : List ι} {s : σ}, Along step ok (es ++ [e]) s →
      exec (run step es) s = (.ok ⟨⟩, s₁) → ok s₁ e
  | [], s, along, reached => by
      have same : s = s₁ := congrArg Prod.snd reached
      exact same ▸ along.1
  | e' :: es, s, along, reached => by
      rw [run, List.forM_cons, exec_bind] at reached
      split at reached
      next first => exact (wp_of_ok along.2 first).last reached
      · simp at reached

theorem Along.init {es' : List ι} :
    ∀ {es : List ι} {s : σ}, Along step ok (es ++ es') s → Along step ok es s
  | [], _, _ => trivial
  | _ :: _, _, along => ⟨along.1, wp_imp along.2 (fun _ _ rest => rest.init)⟩

theorem Along.wp_run (keep : ∀ s e, I s → ok s e → wp (step e) (fun _ => I) E s) :
    ∀ {es : List ι} {s : σ}, Along step ok es s → I s → wp (run step es) (fun _ => I) E s
  | [], s, _, hs => by
      rw [run, List.forM_nil]
      exact hs
  | e :: es, s, along, hs => by
      rw [run, List.forM_cons, wp_bind]
      refine wp_mono (wp_and (keep s e hs along.1) along.2) (fun _ s' h => ?_) fun _ _ h => h.1
      exact wp_run keep h.2 h.1

/-- If an invariant of allowed events makes them satisfy `ok'`, so does every event of an allowed
run. -/
theorem Along.of_inv {ok' : σ → ι → Prop}
    (keep : ∀ s e, I s → ok s e → wp (step e) (fun _ => I) anyStop s)
    (safe : ∀ s e, I s → ok s e → ok' s e) :
    ∀ {es : List ι} {s : σ}, Along step ok es s → I s → Along step ok' es s
  | [], _, _, _ => trivial
  | e :: _, s, along, hs => by
      refine ⟨safe s e hs along.1, ?_⟩
      apply wp_mono (wp_and (keep s e hs along.1) along.2) _ fun _ _ _ => trivial
      exact fun _ _ h => h.2.of_inv keep safe h.1

theorem exec_run_snoc {e : ι} {s₁ s₂ : σ} (reached : exec (run step es) s = (.ok ⟨⟩, s₁))
    (last : exec (step e) s₁ = (.ok ⟨⟩, s₂)) : exec (run step (es ++ [e])) s = (.ok ⟨⟩, s₂) := by
  have one : exec (forM [e] step) s₁ = (.ok ⟨⟩, s₂) := by
    rw [List.forM_cons, exec_bind, last]
    rfl
  rw [run] at reached ⊢
  rw [List.forM_append, exec_bind, reached]
  exact one

/-- What is observed along a run, when the event `e` in state `s` shows `obs s e`. -/
def observed {ω : Type} (step : ι → Prog σ ε PUnit) (obs : σ → ι → List ω) : List ι → σ → List ω
  | [], _ => []
  | e :: es, s => obs s e ++ observed step obs es (exec (step e) s).2

theorem along_of_observed {ω : Type} {obs : σ → ι → List ω} {P : ω → Prop} :
    ∀ {es : List ι} {s : σ}, (∀ x ∈ observed step obs es s, P x) →
      Along step (fun s e => ∀ x ∈ obs s e, P x) es s
  | [], _, _ => trivial
  | e :: es, s, h => by
      refine ⟨fun x mem => h x (List.mem_append_left _ mem), ?_⟩
      apply wp_mono (wp_exec (step e) s) _ fun _ _ _ => trivial
      intro _ s' here
      apply along_of_observed
      intro x mem
      rw [observed, here] at h
      exact h x (List.mem_append_right _ mem)

theorem observed_snoc {ω : Type} {obs : σ → ι → List ω} {e : ι} {s₁ : σ} :
    ∀ {es : List ι} {s : σ}, exec (run step es) s = (.ok ⟨⟩, s₁) →
      observed step obs (es ++ [e]) s = observed step obs es s ++ obs s₁ e
  | [], s, reached => by
      have same : s = s₁ := congrArg Prod.snd reached
      simp [observed, same]
  | e' :: es, s, reached => by
      rw [run, List.forM_cons, exec_bind] at reached
      split at reached
      next first =>
        rw [List.cons_append, observed, observed, first, observed_snoc reached, List.append_assoc]
      · simp at reached

theorem Along.wp_trace_from {I : List ι → σ → Prop}
    (keep : ∀ es s e, exec (run step es) s₀ = (.ok ⟨⟩, s) → I es s → ok s e → wp (step e)
      (fun _ => I (es ++ [e])) E s) :
    ∀ {es : List ι} {s : σ} (pre : List ι), Along step ok es s →
      exec (run step pre) s₀ = (.ok ⟨⟩, s) → I pre s → wp (run step es) (fun _ => I (pre ++ es)) E s
  | [], s, pre, _, _, hs => by
      rw [run, List.forM_nil, List.append_nil]
      exact hs
  | e :: es, s, pre, along, reached, hs => by
      rw [run, List.forM_cons, wp_bind]
      refine wp_mono (wp_and (wp_and (keep pre s e reached hs along.1) along.2) (wp_exec _ _))
        (fun _ s' h => ?_) fun _ _ h => h.1.1
      have rest := wp_trace_from keep (pre ++ [e]) h.1.2 (exec_run_snoc reached h.2) h.1.1
      rwa [List.append_assoc] at rest

theorem Along.wp_trace {I : List ι → σ → Prop} (along : Along step ok es s₀)
    (keep : ∀ es s e, exec (run step es) s₀ = (.ok ⟨⟩, s) → I es s → ok s e → wp (step e)
      (fun _ => I (es ++ [e])) E s)
    (init : I [] s₀) :
    wp (run step es) (fun _ => I es) E s₀ := along.wp_trace_from keep [] rfl init

theorem wp_run_trace {I : List ι → σ → Prop}
    (keep : ∀ es s e, exec (run step es) s₀ = (.ok ⟨⟩, s) → I es s →
      wp (step e) (fun _ => I (es ++ [e])) E s)
    (init : I [] s₀) (es : List ι) : wp (run step es) (fun _ => I es) E s₀ := by
  have along : Along step (fun _ _ => True) es s₀ := along_of_forall (fun _ _ => trivial) es s₀
  exact along.wp_trace (fun es s e reached h _ => keep es s e reached h) init

theorem Along.of_observed {ω : Type} {obs : σ → ι → List ω} {I : List ω → σ → Prop}
    (along : Along step ok es s₀)
    (keep : ∀ l s e, I l s → ok s e → wp (step e) (fun _ => I (l ++ obs s e)) anyStop s)
    (init : I [] s₀) (reached : exec (run step es) s₀ = (.ok ⟨⟩, s)) :
    I (observed step obs es s₀) s := by
  have trace := along.wp_trace (E := anyStop)
    (I := fun es s => I (observed step obs es s₀) s)
    (fun _ s e reached h allowed => observed_snoc reached ▸ keep _ s e h allowed) init
  exact wp_of_ok (Q := fun _ => I (observed step obs es s₀)) trace reached

theorem of_observed {ω : Type} {obs : σ → ι → List ω} {I : List ω → σ → Prop}
    (keep : ∀ l s e, I l s → wp (step e) (fun _ => I (l ++ obs s e)) anyStop s) (init : I [] s₀)
    (reached : exec (run step es) s₀ = (.ok ⟨⟩, s)) : I (observed step obs es s₀) s := by
  have along : Along step (fun _ _ => True) es s₀ := along_of_forall (fun _ _ => trivial) es s₀
  exact along.of_observed (fun l s e h _ => keep l s e h) init reached

theorem of_run (reached : exec (run step es) s₀ = (.ok ⟨⟩, s)) (init : I s₀)
    (keep : ∀ s e, I s → wp (step e) (fun _ => I) anyStop s) : I s := by
  have kept := wp_run_trace (E := anyStop) (I := fun _ => I) (fun _ s e _ h => keep s e h) init es
  exact wp_of_ok (Q := fun _ => I) kept reached

/-- If steps that are not allowed stop with `bad`, the allowed runs are those that do not. -/
theorem along_iff {bad : ε}
    (keep : ∀ s e, I s → ok s e → wp (step e) (fun _ => I) (fun x _ => x ≠ bad) s)
    (fail : ∀ s e, I s → ¬ ok s e → wp (step e) never (fun x _ => x = bad) s) :
    ∀ {es : List ι} {s : σ}, I s →
      (Along step ok es s ↔ wp (run step es) (fun _ _ => True) (fun x _ => x ≠ bad) s)
  | [], s, _ => by
      rw [run, List.forM_nil, wp_pure]
      exact ⟨fun _ => trivial, fun _ => trivial⟩
  | e :: es, s, hs => by
      rw [run, List.forM_cons, wp_bind]
      by_cases allowed : ok s e
      · have here := keep s e hs allowed
        have tail (s' : σ) (hs' : I s') : Along step ok es s' ↔
            wp (run step es) anyStop (fun x _ => x ≠ bad) s' := along_iff keep fail hs'
        refine ⟨fun h => ?_, fun h => ⟨allowed, ?_⟩⟩
        · exact wp_mono (wp_and here h.2) (fun _ s' h' => (tail s' h'.1).1 h'.2) fun _ _ h' => h'.1
        · exact wp_mono (wp_and here h) (fun _ s' h' => (tail s' h'.1).2 h'.2) fun _ _ _ => trivial
      · refine ⟨fun h => absurd h.1 allowed, fun h => ?_⟩
        exact (wp_false (wp_mono (wp_and (fail s e hs allowed) h) (fun _ _ h' => h'.1)
          fun _ _ h' => h'.2 h'.1)).elim

end Xv6.Lib
