import OpticC.Statement.Switches
import OpticC.Backend.Carries
import OpticC.Backend.Simulation

/-! A function body and the function it becomes execute the same expressions in the same
order, whatever the expressions evaluate to. -/

namespace OpticC

open Builder Behaviour

/-- The runs of the function show what the runs of the body show, and end where they end,
when the expressions evaluate to the values that `ω` gives. -/
def SameRuns (E : Expressions) (ω : Oracle) (body : Stmt) (F : BlockId → List Instr) : Prop :=
  ∀ tr,
    (Observes (cMachine E.toConstants ω body) (cStart body) tr ↔
      Observes (fMachine E ω F) (fStart F) tr) ∧
    (Finishes (cMachine E.toConstants ω body) CState.Final (cStart body) tr ↔
      Finishes (fMachine E ω F) FState.Final (fStart F) tr)

variable {E : Expressions} {ω : Oracle} {body : Stmt}

/-- Without switches there is nothing that labels could be wrong about. -/
theorem switchesExact_of_noSwitch (h : body.NoSwitch) : SwitchesExact E ω body := by
  intro c items k tr hreach
  exact (allSwitches_reaches (h.allSwitches fun _ _ => False) hreach).1.1.elim

/-- The cleanup at the end only adds instructions. -/
theorem within_finish (scalarReturn : Bool) (b : Builder) :
    Within (finish E scalarReturn b).code (defaultReturn E b) := by
  intro id _
  show _ <+: terminated E scalarReturn id _
  unfold terminated
  split_ifs
  · exact List.prefix_refl _
  · exact List.prefix_append _ _
  · exact List.prefix_append _ _

theorem lowerBody_sameRuns (scalarReturn : Bool) (hvalid : body.JumpsValid)
    (hswitch : SwitchesExact E ω body) :
    SameRuns E ω body (lowerBody E scalarReturn body).code := by
  intro tr
  have hfits := Stmt.fits_of_valid hvalid.unique hvalid.declared hvalid.enclosed hvalid.defaults
  have hready := entry_ready hfits
  have hF := within_finish (E := E) scalarReturn (lower E none body entry)
  have hins : (lower E none body entry).Known (lower E none body entry).insert :=
    (lower_frame_none body entry).known hready.insert
  have hret : Frame (fun _ => False) (lower E none body entry)
      (defaultReturn E (lower E none body entry)) := by
    unfold defaultReturn
    split_ifs
    · exact .refl _
    · exact .emit _ _
  have hc := carries none body entry hready (hret.within hF)
  have hend : ContAt E (lowerBody E scalarReturn body).code body.labels none none
      (posAt (lowerBody E scalarReturn body).code (lower E none body entry)) .stop := by
    cases hpos : posAt (lowerBody E scalarReturn body).code (lower E none body entry) with
    | none =>
      have hreach := Reach.of_none (lowerBody E scalarReturn body).code (some [.ret])
      exact .stop hreach
    | some l =>
      rw [defaultReturn, if_neg (by simp [closed_of_posAt hpos])] at hF
      obtain ⟨tl, rfl⟩ := jumps_emit hF hins l hpos
      exact .stop (.refl _ _)
  have hsim := simulation hswitch hc hend
  have hstart : Match E (lowerBody E scalarReturn body).code body.labels (cStart body)
      (fStart (lowerBody E scalarReturn body).code) := .run (.refl _) hc hend
  have hreach := Reaches.refl (cMachine E.toConstants ω body) (cStart body)
  exact ⟨hsim.observes_iff ⟨hreach, hstart⟩ tr, hsim.finishes_iff ⟨hreach, hstart⟩ tr⟩

end OpticC
