import CppSerializer.Launcher.Answers
import CppSerializer.Process.Steps
import CppSerializer.Topics.View

/-!
# The parts of the process

In a run of the process the launcher goes through a run of its own (`run_launcher`), and so does
every topic (`run_bucket`): what the process does with them are steps of theirs, so that their
invariants hold in it.
-/

namespace CppSerializer.Process

open Pack Bucket ReadLoop TcpConnection Transition

/-! ## The launcher -/

/-- The condition is on the steps of the launcher that workers and timers make. -/
def OnLauncher (G : Launcher.State → Launcher.Action → Prop) (p : Process) (a : Action) : Prop :=
  ∀ l, a = .launcher l → G p.launcher l

instance (G : Launcher.State → Launcher.Action → Prop) [∀ s l, Decidable (G s l)] (p : Process)
    (a : Action) : Decidable (OnLauncher G p a) :=
  match a with
  | .launcher l => decidable_of_iff (G p.launcher l) ⟨fun h _ hl => by cases hl; exact h,
      fun h => h l rfl⟩
  | .accept | .arrive _ _ | .complete _ _ | .fail _ _ | .next _ _ _ _ | .topics _ =>
    .isTrue fun _ hl => by cases hl

theorem launcher_of_step {p q : Process} {a : Action} (h : p.step a = some q) :
    q.launcher = p.launcher ∨ ∃ l, p.launcher.step l = some q.launcher ∧
      (a = .launcher l ∨ launcherCall l = true) := by
  cases step_cases h with
  | accept | arrive | complete | fail => exact Or.inl rfl
  | next c k randomSalt sequence s found op ops code q performed =>
    rcases performed.launcher with ⟨hsame, -⟩ | ⟨l, hl, hstep⟩
    · exact Or.inl hsame
    · refine Or.inr ⟨l, hstep, Or.inr ?_⟩
      cases op with
      | effect request e =>
        cases e with
        | startTriggerPost | addWorker | startJobs =>
          cases hl
          rfl
        | _ => cases hl
      | _ => cases hl
  | topics a own t out step q wrote => exact Or.inl wrote.launcher
  | launcher a own q step =>
    cases step with
    | silent l step completions => exact Or.inr ⟨a, step, Or.inl rfl⟩
    | callback l step done strand completions =>
      refine Or.inr ⟨a, ?_, Or.inl rfl⟩
      rw [(callback_topics _ done).2.1]
      exact step

/-- The launcher of the process goes through a run of its own. -/
theorem run_launcher {G : Launcher.State → Launcher.Action → Prop}
    (hcall : ∀ s l, launcherCall l = true → G s l) {as : List Action} {p : Process}
    (hrun : run step init as = some p) (hG : Guarded step (OnLauncher G) init as) :
    ∃ ls, run Launcher.State.step Launcher.State.init ls = some p.launcher ∧
      Guarded Launcher.State.step G Launcher.State.init ls := by
  revert hG
  refine run_induction (P := fun as p => Guarded step (OnLauncher G) init as →
    ∃ ls, run Launcher.State.step Launcher.State.init ls = some p.launcher ∧
      Guarded Launcher.State.step G Launcher.State.init ls) ?_ ?_ as p hrun
  · exact fun _ => ⟨[], rfl, guarded_nil _ _⟩
  intro as p a q hp ih hq hG
  obtain ⟨ls, hls, hguard⟩ := ih hG.prefix
  rcases launcher_of_step hq with hsame | ⟨l, hl, hwho⟩
  · rw [hsame]
    exact ⟨ls, hls, hguard⟩
  · refine ⟨ls ++ [l], run_concat hls hl, hguard.concat hls ?_⟩
    rcases hwho with rfl | hcalled
    · exact hG.last hp l rfl
    · exact hcall _ l hcalled

theorem topics_of_launcher {bs : List Action} {p q : Process} (hrun : run step p bs = some q) :
    p.launcher.topics <+: q.launcher.topics := by
  refine run_induction (P := fun _ q => p.launcher.topics <+: q.launcher.topics)
    List.prefix_rfl ?_ bs q hrun
  intro _ q a r _ ih hr
  rcases launcher_of_step hr with hsame | ⟨l, hl, -⟩
  · rwa [hsame]
  · exact ih.trans (Launcher.topics_prefix (Launcher.correlationStep hl).2)

/-- In a run whose jobs differ in their keys or salts, as `started_jobs_` compares headers, no
response finds the job of another. -/
theorem findsNoOther_of_run {as : List Action} {p : Process} (hrun : run step init as = some p)
    (hnodup : p.launcher.topics.Nodup) :
    Guarded step (OnLauncher Launcher.FindsNoOther) init as := by
  rintro pre a post q rfl hq l rfl
  obtain ⟨q', hq', hrest⟩ := run_append_some hrun
  rw [hq] at hq'
  cases hq'
  obtain ⟨ls, hls, -⟩ := run_launcher (G := fun _ _ => True) (fun _ _ _ => trivial) hq
    fun _ _ _ _ _ _ _ _ => trivial
  have hprefix := topics_of_launcher hrest
  have hdistinct := hnodup.sublist hprefix.sublist
  exact Launcher.findsNoOther_of_nodup (Launcher.run_matching hls) hdistinct l

/-! ## The topics -/

theorem topics_of_step {p q : Process} {a : Action} (h : p.step a = some q) :
    q.topics = p.topics ∨ ∃ b, Topics.next p.topics b = some q.topics := by
  have hnext : ∀ {b out}, p.topics.step b = some (q.topics, out) →
      ∃ b, Topics.next p.topics b = some q.topics := by
    intro b out hb
    refine ⟨b, ?_⟩
    rw [Topics.next, hb]
    rfl
  cases step_cases h with
  | accept | arrive | complete | fail => exact Or.inl rfl
  | next c k randomSalt sequence s found op ops code q performed =>
    have htopics : q.topics = posted c p.topics op := performed.topics
    rcases posted_step c p.topics op with hsame | ⟨b, hb, -, -⟩
    · exact Or.inl (htopics.trans hsame)
    · rw [← htopics] at hb
      exact Or.inr (hnext hb)
  | topics a own t out step q wrote =>
    have htopics : q.topics = t := wrote.topics
    rw [← htopics] at step
    exact Or.inr (hnext step)
  | launcher a own q step =>
    cases step with
    | silent l step completions => exact Or.inl rfl
    | callback l step done strand completions => exact Or.inl (callback_topics _ done).1

theorem run_topics {as : List Action} {p : Process} (hrun : run step init as = some p) :
    ∃ ts, run Topics.next Topics.init ts = some p.topics := by
  refine run_induction (P := fun _ p => ∃ ts, run Topics.next Topics.init ts = some p.topics)
    ⟨[], rfl⟩ ?_ as p hrun
  rintro as p a q _ ⟨ts, hts⟩ hq
  rcases topics_of_step hq with hsame | ⟨b, hb⟩
  · rw [hsame]
    exact ⟨ts, hts⟩
  · exact ⟨ts ++ [b], run_concat hts hb⟩

/-- Every topic of the process goes through a run of the bucket model. -/
theorem run_bucket {as : List Action} {p : Process} (hrun : run step init as = some p)
    (topic : Topic) : ∃ bs s, run (Bucket.State.step topic) Bucket.State.init bs = some s ∧
      s.bucket = p.topics.view topic := by
  obtain ⟨ts, hts⟩ := run_topics hrun
  exact Topics.run_view hts topic

end CppSerializer.Process
