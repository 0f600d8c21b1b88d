import Hcl.Proofs.Builder.Faults

/-!
# States of a builder

The states that a builder comes through while it reads a source. Each is the builder at a stage, or
has closed the scope of the document and keeps the tree of the last stage.
-/

namespace Hcl

open Hcl.Tree
open Relation (ReflTransGen)

namespace Builder

/-- From `b` the builder goes on to `b'` in one step. -/
def Next (b b' : Builder) : Prop :=
  ∃ scope outer, b.scopes = scope :: outer ∧ b.step scope = .ok b'

/-- The builder that reads `source` comes to the state `b`. -/
def Reached (source : String) (b : Builder) : Prop := ReflTransGen Next (.ofString source) b

/-- The builder is at a stage or done with it. -/
inductive IsAt (source : String) : Builder → Prop where
  | stage {st : Stage} : st.Reached source → IsAt source (st.builder source.toList)
  | done {st : Stage} {b : Builder} {trees : List Tree} : st.Reached source →
      st.spine = .root trees → b.scopes = [] → b.tree = st.spine.tree → IsAt source b

end Builder

/-- What comes of a step from a stage. -/
theorem Stage.Reached.step_cases {source : String} {st : Stage} (h : st.Reached source) :
    (∃ b, st.step source.toList = .ok b ∧ b.IsAt source ∧
      ((∃ st', Move source.toList st st' ∧ b = st'.builder source.toList) ∨
        b.scopes = [] ∧ b.tree = st.spine.tree)) ∨
    ∃ stopped, st.step source.toList = .error stopped ∧ st.Fails source.toList stopped := by
  have hout := @Stage.outcome_step source.toList st h.sound
  generalize hstep : st.step source.toList = r at hout
  cases hout with
  | @move st' hmove =>
    exact .inl ⟨_, rfl, .stage (.of_moves (h.moves.tail hmove)), .inl ⟨st', hmove, rfl⟩⟩
  | finish hroot _ _ hscopes htree =>
    exact .inl ⟨_, rfl, .done h hroot hscopes htree, .inr ⟨hscopes, htree⟩⟩
  | stop htree hsound hleaves =>
    exact .inr ⟨_, rfl, Stage.fails_of_step h.isIn hstep htree hsound hleaves⟩

theorem Builder.Next.eq_step {source : List Char} {st : Stage} {b' : Builder}
    (h : (st.builder source).Next b') : st.step source = .ok b' := by
  obtain ⟨scope, outer, hscopes, hstep⟩ := h
  obtain ⟨rfl, -⟩ := List.cons.inj hscopes
  exact hstep

theorem Builder.Reached.isAt {source : String} {b : Builder} (h : b.Reached source) :
    b.IsAt source := by
  induction h with
  | refl => exact @IsAt.stage source (.ofStream (.ofString source)) (.of_moves .refl)
  | tail _ hnext ih =>
    cases ih with
    | stage hst =>
      rcases hst.step_cases with ⟨b', hstep, hb', -⟩ | ⟨stopped, hstep, -⟩
      · cases hnext.eq_step.symm.trans hstep
        exact hb'
      · cases hnext.eq_step.symm.trans hstep
    | done _ _ hscopes _ =>
      obtain ⟨scope, outer, hcons, -⟩ := hnext
      rw [hscopes] at hcons
      cases hcons

/-- A run goes through states up to one where no scope is open or a step fails. -/
theorem Builder.exists_next_run (b : Builder) :
    ∃ last, ReflTransGen Next b last ∧
      ((last.scopes = [] ∧ b.run = ⟨last.tree, none⟩) ∨
        ∃ scope outer stopped, last.scopes = scope :: outer ∧ last.step scope = .error stopped ∧
          b.run = ⟨stopped.tree, some stopped.error⟩) := by
  cases hscopes : b.scopes with
  | nil => exact ⟨b, .refl, .inl ⟨hscopes, run_of_scopes_nil hscopes⟩⟩
  | cons scope outer =>
    have hrun := run_of_scopes hscopes
    cases hstep : b.step scope with
    | error stopped =>
      rw [hstep] at hrun
      exact ⟨b, .refl, .inr ⟨scope, outer, stopped, hscopes, hstep, hrun⟩⟩
    | ok next =>
      rw [hstep] at hrun
      have hlt := step_lt hscopes hstep
      obtain ⟨last, hlast, hend⟩ := exists_next_run next
      exact ⟨last, .head ⟨scope, outer, hscopes, hstep⟩ hlast, hrun ▸ hend⟩
termination_by b.measure

end Hcl
