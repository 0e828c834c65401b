import BlockProgram.Proofs.Pairing.Code

/-!
# The same output

The two programs of a faithful pairing whose runs start alike have the same output, or end in the
same fault (`compile_alike`).
-/

namespace BlockProgram

open List Program

namespace Program

/-- The program that blocks make up over a host without symbols, or an empty one. -/
def ofBlocks (specs : List BlockSpec) : Program where
  workspace :=
    match Workspace.build {} specs [] with
    | .ok ws => ws
    | .error _ => {}
  surface := {}

/-- What is known about a program once its scopes are found. -/
@[irreducible] def tracked (p : Program) : Compilation :=
  (p.track (p.start p.selectTops)).2

def live (p : Program) (b : BlockRef) : Bool :=
  p.isLive (p.start p.selectTops) b

end Program

namespace Pairing

/-- The runs of the two programs start alike: the same top blocks are selected, and what is live and
visited corresponds. -/
structure StartsAlike (P : Pairing) : Prop where
  leftScopes : P.leftScopes = (P.left.track (P.left.start P.left.selectTops)).2
  rightScopes : P.rightScopes = (P.right.track (P.right.start P.right.selectTops)).2
  abreast : P.Abreast [] P.leftScopes P.rightScopes
  live : P.left.workspace.refs.filter P.leftLive =
    (P.right.workspace.refs.filter P.rightLive).map P.embed
  shown : ∀ b ∈ P.right.workspace.refs, P.rightLive b = true →
    (P.left.block (P.embed b)).shadow = (P.right.block b).shadow ∧
      (P.left.block (P.embed b)).tag = (P.right.block b).tag
  checked : P.left.workspace.refs.filter (P.left.isChecked P.leftScopes) =
    (P.right.workspace.refs.filter (P.right.isChecked P.rightScopes)).map P.embed
  reached : ∀ b ∈ P.right.workspace.refs, P.right.isChecked P.rightScopes b → P.Reached b
  tops : P.left.tops P.left.selectTops =
    (P.right.tops P.right.selectTops).map fun top => (P.embed top.1, top.2)
  topReached : ∀ top ∈ P.right.tops P.right.selectTops, P.TopReached top
  disabled : P.left.selectTops.disabled = P.right.selectTops.disabled.map P.embed

variable {P : Pairing} (h : P.Faithful) (hstart : P.StartsAlike)
include hstart

theorem stats_eq {c d : Compilation} (hS : P.Abreast [] c d) :
    P.left.stats c = P.right.stats d := by
  have hsplit : ∀ (p : Program) (live : BlockRef → Bool),
      (p.workspace.refs.filter fun b => !(p.block b).shadow && live b) =
        (p.workspace.refs.filter live).filter fun b => !(p.block b).shadow := by
    intro p live
    rw [filter_filter]
  have hcounted : (P.left.workspace.refs.filter fun b =>
        !(P.left.block b).shadow && P.left.isLive c b).map (fun b => (P.left.block b).tag) =
      (P.right.workspace.refs.filter fun b =>
        !(P.right.block b).shadow && P.right.isLive d b).map fun b => (P.right.block b).tag := by
    rw [hS.leftLive, hS.rightLive, hsplit, hsplit, hstart.live, filter_map, map_map]
    have hshadow : ∀ b ∈ P.right.workspace.refs.filter P.rightLive,
        ((fun b => !(P.left.block b).shadow) ∘ P.embed) b = !(P.right.block b).shadow := by
      intro b hb
      obtain ⟨hmem, hlive⟩ := mem_filter.mp hb
      show (!(P.left.block (P.embed b)).shadow) = _
      rw [(hstart.shown b hmem hlive).1]
    rw [filter_congr hshadow]
    refine map_congr_left ?_
    intro b hb
    obtain ⟨hmem, hlive⟩ := mem_filter.mp (mem_of_mem_filter hb)
    exact (hstart.shown b hmem hlive).2
  unfold stats
  dsimp only
  rw [hcounted]

include h

theorem output_eq (options : CompileOptions) {c d : Compilation} (hS : P.Abreast [] c d)
    (code : List Code) :
    P.left.output options P.left.selectTops c code =
      P.right.output options P.right.selectTops d code := by
  have hids : P.left.selectTops.disabled.map (fun b => (P.left.block b).id) =
      P.right.selectTops.disabled.map fun b => (P.right.block b).id := by
    rw [hstart.disabled, map_map]
    exact map_congr_left fun b _ => h.ids b
  unfold output
  rw [hids, stats_eq hstart hS, hS.diagnostics]

/-- Both programs compile to one output, or both fail with one fault, which is allowed. -/
theorem compile_alike (options : CompileOptions) :
    (∃ out, P.left.compile options = .ok out ∧ P.right.compile options = .ok out) ∨
      P.MayFail ∧ ∃ f, P.left.compile options = .error f ∧ P.right.compile options = .error f := by
  have hinfer := writing_infer h hstart.checked hstart.reached _ _ hstart.abreast
  rw [hstart.leftScopes, hstart.rightScopes] at hinfer
  unfold compile
  dsimp only
  generalize P.left.infer (P.left.track (P.left.start P.left.selectTops)).2 = x at hinfer
  generalize P.right.infer (P.right.track (P.right.start P.right.selectTops)).2 = y at hinfer
  cases hinfer with
  | error hfail _ => exact .inr ⟨hfail, _, rfl, rfl⟩
  | @ok _ _ c d _ hS =>
    have hemit := writing_emitProgram h hstart.topReached c d hS
    rw [← hstart.tops] at hemit
    dsimp only
    generalize P.left.emitProgram (P.left.tops P.left.selectTops) c = x at hemit
    generalize P.right.emitProgram (P.right.tops P.right.selectTops) d = y at hemit
    cases hemit with
    | error hfail _ => exact .inr ⟨hfail, _, rfl, rfl⟩
    | ok hcode hS' =>
      subst hcode
      refine .inl ⟨_, rfl, ?_⟩
      dsimp only
      rw [output_eq h hstart options hS']

theorem compile_eq (options : CompileOptions) :
    P.left.compile options = P.right.compile options := by
  rcases compile_alike h hstart options with ⟨out, hleft, hright⟩ | ⟨_, f, hleft, hright⟩
  · rw [hleft, hright]
  · rw [hleft, hright]

end Pairing

end BlockProgram
