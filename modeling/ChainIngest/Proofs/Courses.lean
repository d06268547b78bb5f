import ChainIngest.Dialogue
/-!
# Courses of a dialogue

Surroundings need not be a function: a rule tells which replies they may give and
how they may change meanwhile.  A course is one way in which a dialogue can go
under such a rule.  It may break off before any question, so the states that
unfinished courses leave are all the states in between.
-/

namespace ChainIngest.Dialogue

variable {ι : Type} {ρ : ι → Type} {α β σ τ : Type}

/-- Which replies to a question are possible, and what they turn the surroundings into. -/
abbrev Rule (ι : Type) (ρ : ι → Type) (σ : Type) := (q : ι) → σ → ρ q → σ → Prop

/-- A way in which a dialogue can go, from surroundings to surroundings; without a result if it
broke off. -/
inductive Course (R : Rule ι ρ σ) : Dialogue ι ρ α → σ → Option α → σ → Prop where
  | done {a : α} {s : σ} : Course R (.done a) s (some a) s
  | cut {d : Dialogue ι ρ α} {s : σ} : Course R d s none s
  | ask {q : ι} {next : ρ q → Dialogue ι ρ α} {reply : ρ q} {out : Option α} {s s₁ s₂ : σ} :
      R q s reply s₁ → Course R (next reply) s₁ out s₂ → Course R (.ask q next) s out s₂

variable {R : Rule ι ρ σ} {s s' : σ}

theorem course_done_iff {a : α} {out : Option α} :
    Course R (.done a) s out s' ↔ (out = none ∨ out = some a) ∧ s' = s := by
  constructor
  · intro h
    cases h with
    | done => exact ⟨.inr rfl, rfl⟩
    | cut => exact ⟨.inl rfl, rfl⟩
  · rintro ⟨rfl | rfl, rfl⟩
    · exact .cut
    · exact .done

theorem course_ask_iff {q : ι} {next : ρ q → Dialogue ι ρ α} {out : Option α} :
    Course R (.ask q next) s out s' ↔
      (out = none ∧ s' = s) ∨ ∃ reply s₁, R q s reply s₁ ∧ Course R (next reply) s₁ out s' := by
  constructor
  · intro h
    cases h with
    | cut => exact .inl ⟨rfl, rfl⟩
    | ask hreply hnext => exact .inr ⟨_, _, hreply, hnext⟩
  · rintro (⟨rfl, rfl⟩ | ⟨reply, s₁, hreply, hnext⟩)
    · exact .cut
    · exact .ask hreply hnext

theorem course_request_iff {q : ι} {out : Option (ρ q)} :
    Course R (request q) s out s' ↔
      (out = none ∧ s' = s) ∨ ∃ reply, R q s reply s' ∧ (out = none ∨ out = some reply) := by
  rw [request, course_ask_iff]
  apply or_congr_right
  constructor
  · rintro ⟨reply, s₁, hreply, hdone⟩
    obtain ⟨hout, rfl⟩ := course_done_iff.mp hdone
    exact ⟨reply, hreply, hout⟩
  · rintro ⟨reply, hreply, hout⟩
    exact ⟨reply, s', hreply, course_done_iff.mpr ⟨hout, rfl⟩⟩

/-- A dialogue after another breaks off in the first, or begins where the first has ended. -/
theorem course_bind_iff {d : Dialogue ι ρ α} {f : α → Dialogue ι ρ β} {out : Option β} :
    Course R (d.bind f) s out s' ↔
      (out = none ∧ Course R d s none s') ∨
        ∃ a s₁, Course R d s (some a) s₁ ∧ Course R (f a) s₁ out s' := by
  induction d generalizing s with
  | done a =>
      constructor
      · intro h
        exact .inr ⟨a, s, .done, h⟩
      · rintro (⟨rfl, h⟩ | ⟨b, s₁, hd, hf⟩)
        · obtain ⟨_, rfl⟩ := course_done_iff.mp h
          exact .cut
        · obtain ⟨hb, rfl⟩ := course_done_iff.mp hd
          cases hb with
          | inl hnone => cases hnone
          | inr hsome => cases hsome; exact hf
  | ask q next ih =>
      rw [show (Dialogue.ask q next).bind f = .ask q fun reply => (next reply).bind f from rfl]
      simp only [course_ask_iff, ih]
      constructor
      · rintro (⟨rfl, rfl⟩ | ⟨reply, s₁, hreply, ⟨rfl, hcut⟩ | ⟨a, s₂, ha, hf⟩⟩)
        · exact .inl ⟨rfl, .inl ⟨trivial, rfl⟩⟩
        · exact .inl ⟨rfl, .inr ⟨reply, s₁, hreply, hcut⟩⟩
        · exact .inr ⟨a, s₂, .inr ⟨reply, s₁, hreply, ha⟩, hf⟩
      · rintro (⟨rfl, ⟨_, rfl⟩ | ⟨reply, s₁, hreply, hcut⟩⟩ | ⟨a, s₂, h | ⟨reply, s₁, hreply, ha⟩, hf⟩)
        · exact .inl ⟨rfl, rfl⟩
        · exact .inr ⟨reply, s₁, hreply, .inl ⟨rfl, hcut⟩⟩
        · cases h.1
        · exact .inr ⟨reply, s₁, hreply, .inr ⟨a, s₂, ha, hf⟩⟩

theorem exists_course (hreply : ∀ q s, ∃ reply s', R q s reply s') (d : Dialogue ι ρ α) (s : σ) :
    ∃ a s', Course R d s (some a) s' := by
  induction d generalizing s with
  | done a => exact ⟨a, s, .done⟩
  | ask q next ih =>
      obtain ⟨reply, s₁, hR⟩ := hreply q s
      obtain ⟨a, s', hcourse⟩ := ih reply s₁
      exact ⟨a, s', .ask hR hcourse⟩

/-- Whatever surroundings that answer within a rule run is a course.  Their state may hold more
than the rule speaks of, or be kept differently. -/
theorem course_of_run (answer : (q : ι) → τ → Option (ρ q) × τ) (sim : τ → σ → Prop)
    (hreply : ∀ {q t reply t' s}, answer q t = (some reply, t') → sim t s →
      ∃ s', R q s reply s' ∧ sim t' s')
    (hcut : ∀ {q t t' s}, answer q t = (none, t') → sim t s → sim t' s)
    (d : Dialogue ι ρ α) {t : τ} {s : σ} (h : sim t s) :
    ∃ s', Course R d s (d.run answer t).1 s' ∧ sim (d.run answer t).2 s' := by
  induction d generalizing t s with
  | done a => exact ⟨s, .done, h⟩
  | ask q next ih =>
      rw [run]
      split
      · next reply t' heq =>
        obtain ⟨s₁, hR, hsim⟩ := hreply heq h
        obtain ⟨s₂, hcourse, hend⟩ := ih reply hsim
        exact ⟨s₂, .ask hR hcourse, hend⟩
      · next t' heq => exact ⟨s, .cut, hcut heq h⟩

/-- All questions that a dialogue may come to have a property. -/
inductive Asks (p : ι → Prop) : Dialogue ι ρ α → Prop where
  | done {a : α} : Asks p (.done a)
  | ask {q : ι} {next : ρ q → Dialogue ι ρ α} : p q → (∀ reply, Asks p (next reply)) →
      Asks p (.ask q next)

theorem Asks.bind {p : ι → Prop} {d : Dialogue ι ρ α} {f : α → Dialogue ι ρ β} (h : Asks p d)
    (hf : ∀ a, Asks p (f a)) : Asks p (d.bind f) := by
  induction h with
  | done => exact hf _
  | ask hq _ ih => exact .ask hq ih

theorem Asks.mono {p p' : ι → Prop} (hp : ∀ q, p q → p' q) {d : Dialogue ι ρ α}
    (h : Asks p d) : Asks p' d := by
  induction h with
  | done => exact .done
  | ask hq _ ih => exact .ask (hp _ hq) ih

theorem run_isSome_of_asks {p : ι → Prop} {answer : (q : ι) → τ → Option (ρ q) × τ}
    {d : Dialogue ι ρ α} (hd : Asks p d) (h : ∀ q t, p q → (answer q t).1.isSome) (t : τ) :
    (d.run answer t).1.isSome := by
  induction hd generalizing t with
  | done => rfl
  | @ask q next hq _ ih =>
      rw [run]
      have hanswered := h q t hq
      split
      · exact ih _ _
      · next heq =>
        rw [heq] at hanswered
        cases hanswered

theorem run_isSome {answer : (q : ι) → τ → Option (ρ q) × τ} (h : ∀ q t, (answer q t).1.isSome)
    (d : Dialogue ι ρ α) (t : τ) : (d.run answer t).1.isSome := by
  have hd : Asks (fun _ => True) d := by
    induction d with
    | done a => exact .done
    | ask q next ih => exact .ask trivial ih
  exact run_isSome_of_asks hd (fun q t _ => h q t) t

end ChainIngest.Dialogue
