import Mathlib.Data.List.Induction
import Zlvm.Asm.Sections

/-!
# Where `.locate` puts a section, and what `.align` makes of its size

* `locatedAddress` — the address of a section in terms of the lines of the source;
  **`Reached.located`** — it is the address that the context holds.
* `Quiet` — lines that neither emit into a section nor locate it.
* **`Reached.aligned`** — behind an `.align`, and as long as the lines are quiet, the size of the
  section is a multiple of the alignment.
* `alignment_of_processLines` — the alignment of a section never becomes smaller.
-/

namespace Zlvm

open Loop Alignment

/-! ## The address of a section -/

/-- A directive has one type. -/
theorem argument_unique {line : Line} {type type' : DirectiveType} {argument : Token}
    (h : line.argument type = some argument) (hne : type ≠ type') : line.argument type' = none := by
  unfold Line.argument at h ⊢
  split
  · rfl
  · rename_i directive hbody
    rw [hbody] at h
    dsimp only at h
    split at h
    · rename_i htype
      rw [if_neg]
      rintro rfl
      exact hne htype.symm
    · cases h

/-- The value of a `.locate`. -/
def Line.location (line : Line) : Option ℕ :=
  (line.argument .dirLocate).bind fun argument => (tokenGetIntValue argument).toOption

/-- What is known of one section: whether it is selected, how many bytes it has got from the lines,
and its address. -/
structure Location where
  selected : CString
  bytes : ℕ
  address : ℕ

/-- What a line does to the section of the given name: `.locate` moves it while it is empty. -/
def Location.next (name : CString) (location : Location) (line : Line) : Location :=
  let selected := line.selects location.selected
  if location.selected = name then
    { selected
      bytes := location.bytes + line.emittedBytes
      address := if location.bytes = 0 then line.location.getD location.address
        else location.address }
  else { location with selected }

/-- What the lines do to the section of the given name. -/
def locationOf (name : CString) (lines : List Line) : Location :=
  lines.foldl (Location.next name) { selected := CString.lit "text", bytes := 0, address := 0 }

/-- The address of a section: that of the last `.locate` while nothing had been emitted into it, or
zero. -/
def locatedAddress (lines : List Line) (name : CString) : ℕ := (locationOf name lines).address

theorem locationOf_concat (name : CString) (lines : List Line) (line : Line) :
    locationOf name (lines ++ [line]) = (locationOf name lines).next name line := by
  rw [locationOf, List.foldl_append]
  rfl

theorem selected_locationOf (name : CString) (lines : List Line) :
    (locationOf name lines).selected = selectedSection lines := by
  induction lines using List.reverseRecOn with
  | nil => rfl
  | append_singleton lines line ih =>
      rw [locationOf_concat, selectedSection_concat, Location.next, ← ih]
      split <;> rfl

/-- **`.locate`** moves an empty section and pads any other one. -/
theorem locateSection_cases {s s' : AsmSection} {argument : Token}
    (h : locateSection s argument = .ok s') :
    ∃ address, tokenGetIntValue argument = .ok address ∧
      (s.size = 0 → s'.size = 0 ∧ s'.address.toNat = address) ∧
      (s.size ≠ 0 → s'.size ≠ 0 ∧ s'.address = s.address) := by
  simp only [locateSection, bind_eq_ok, require_eq_ok] at h
  obtain ⟨address, hvalue, -, ⟨hmax, -⟩, moved, hmoved, -, -, h⟩ := h
  obtain rfl := Except.ok.inj h
  refine ⟨address, hvalue, fun hzero => ?_, fun hne => ?_⟩
  · rw [moveSection, if_pos hzero] at hmoved
    obtain rfl := Except.ok.inj hmoved
    rw [uint32Max] at hmax
    refine ⟨hzero, ?_⟩
    rw [UInt32.toNat_ofNat', Nat.mod_eq_of_lt (by omega)]
  · rw [moveSection, if_neg hne] at hmoved
    simp only [bind_eq_ok, require_eq_ok] at hmoved
    obtain ⟨-, hle, hmoved⟩ := hmoved
    obtain rfl := Except.ok.inj hmoved
    dsimp only
    exact ⟨by omega, rfl⟩

/-- **The address of a section** is the one that the source says. -/
theorem Reached.located {done : List Line} {state : DirectiveState} (h : Reached done state)
    (name : CString) :
    ((sectionOf state.context name).size = 0 ↔ (locationOf name done).bytes = 0) ∧
      (sectionOf state.context name).address.toNat = locatedAddress done name := by
  induction h with
  | init =>
      rw [sectionOf, directiveInit, asmInit, List.find?_singleton]
      split <;> exact ⟨Iff.rfl, rfl⟩
  | step before processed ih =>
      rename_i done line last state state'
      obtain ⟨hsize, haddress⟩ := ih
      obtain ⟨hnames, hcurrent⟩ := before.sections
      have hsteps := processed.steps hnames
      rw [locatedAddress, locationOf_concat, Location.next, selected_locationOf]
      by_cases hselected : selectedSection done = name
      · have hname : name = state.context.current.name := hselected.symm.trans hcurrent.symm
        rw [if_pos hselected]
        dsimp only
        have hstep := hsteps.step
        rw [hname, hnames.sectionOf_current] at hsize haddress
        rw [← hname] at hsize haddress hstep
        generalize sectionOf state'.context name = s' at hstep
        rw [locatedAddress] at haddress
        cases hstep with
        | emit emits =>
            rw [Line.location, argument_of_emits emits rfl]
            dsimp only
            rw [Nat.add_eq_zero_iff, Nat.add_eq_zero_iff, hsize]
            refine ⟨Iff.rfl, ?_⟩
            rw [haddress]
            exact (ite_self _).symm
        | align directive aligned =>
            have hsilent : line.emits = false := by
              refine eq_false_of_ne_true fun hemits => ?_
              rw [argument_of_emits hemits rfl] at directive
              cases directive
            obtain ⟨k, -, -, hround, -⟩ := alignSection_roundUp aligned
            rw [Line.location, argument_unique directive (by decide),
              emittedBytes_of_silent hsilent, Nat.add_zero, (alignSection_fields aligned).2.2.1,
              haddress]
            refine ⟨?_, (ite_self _).symm⟩
            rw [← hsize, hround]
            constructor
            · intro hzero
              have hle := le_roundUp (Nat.two_pow_pos k) state.context.current.size
              omega
            · intro hzero
              rw [hzero]
              exact (roundUp_eq_self (Nat.two_pow_pos k)).mpr (Nat.dvd_zero _)
        | locate directive located =>
            have hsilent : line.emits = false := by
              refine eq_false_of_ne_true fun hemits => ?_
              rw [argument_of_emits hemits rfl] at directive
              cases directive
            obtain ⟨address, hvalue, hempty, hfull⟩ := locateSection_cases located
            rw [Line.location, directive, emittedBytes_of_silent hsilent, Nat.add_zero]
            dsimp only [Option.bind_some]
            rw [hvalue]
            by_cases hzero : state.context.current.size = 0
            · obtain ⟨hsize', haddress'⟩ := hempty hzero
              rw [if_pos (hsize.mp hzero), haddress', hsize']
              exact ⟨iff_of_true rfl (hsize.mp hzero), rfl⟩
            · obtain ⟨hsize', haddress'⟩ := hfull hzero
              have hbytes := mt hsize.mpr hzero
              rw [if_neg hbytes, haddress', haddress]
              exact ⟨iff_of_false hsize' hbytes, rfl⟩
        | keep silent noAlign noLocate =>
            rw [Line.location, noLocate, emittedBytes_of_silent silent, Nat.add_zero, haddress]
            exact ⟨hsize, (ite_self _).symm⟩
      · have hother : name ≠ state.context.current.name := fun heq =>
          hselected (hcurrent.symm.trans heq.symm)
        rw [if_neg hselected, hsteps.other name hother]
        exact ⟨hsize, haddress⟩

/-! ## Alignment -/

/-- Lines that neither emit into a section nor locate it; `before` are the lines before them. -/
def Quiet (before between : List Line) (name : CString) : Prop :=
  ∀ done line rest, between = done ++ line :: rest → selectedSection (before ++ done) = name →
    line.emits = false ∧ line.argument .dirLocate = none

theorem Quiet.of_append {before between rest : List Line} {name : CString}
    (h : Quiet before (between ++ rest) name) : Quiet before between name :=
  fun done line rest' hsplit =>
    h done line (rest' ++ rest) (by rw [hsplit, List.append_assoc]; rfl)

/-- An alignment that divides a size divides what another alignment rounds it up to. -/
theorem two_pow_dvd_roundUp {j k v : ℕ} (h : 2 ^ j ∣ v) : 2 ^ j ∣ roundUp (2 ^ k) v := by
  rcases Nat.le_total j k with hle | hle
  · exact (Nat.pow_dvd_pow 2 hle).trans (dvd_roundUp (Nat.two_pow_pos k) v)
  · rw [(roundUp_eq_self (Nat.two_pow_pos k)).mpr ((Nat.pow_dvd_pow 2 hle).trans h)]
    exact h

/-- What an `.align` leaves of a section, as long as nothing is emitted into it. -/
structure AlignedTo (s : AsmSection) (j : ℕ) : Prop where
  size : 2 ^ j ∣ s.size
  alignment : ∃ k, j ≤ k ∧ s.alignment.toNat = 2 ^ k

theorem AlignedTo.step {line : Line} {s s' : AsmSection} {j : ℕ} (h : AlignedTo s j)
    (hstep : SectionStep line s s') (hsilent : line.emits = false)
    (hlocate : line.argument .dirLocate = none) : AlignedTo s' j := by
  obtain ⟨k, hle, hk⟩ := h.alignment
  obtain ⟨k', hle', hk'⟩ := hstep.alignment hk
  refine ⟨?_, k', hle.trans hle', hk'⟩
  cases hstep with
  | emit emits =>
      rw [hsilent] at emits
      cases emits
  | align directive aligned =>
      obtain ⟨i, -, -, hround, -⟩ := alignSection_roundUp aligned
      rw [hround]
      exact two_pow_dvd_roundUp h.size
  | locate directive =>
      rw [hlocate] at directive
      cases directive
  | keep => exact h.size

/-- **Behind an `.align`** the size of the section is a multiple of the alignment until something is
emitted into it. -/
theorem Reached.aligned {done : List Line} {state : DirectiveState} (h : Reached done state) :
    ∀ {before between : List Line} {align : Line} {argument : Token} {n : ℕ},
      done = before ++ align :: between → align.argument .dirAlign = some argument →
      tokenGetIntValue argument = .ok n →
      Quiet (before ++ [align]) between (selectedSection before) →
      ∃ j, n = 2 ^ j ∧ AlignedTo (sectionOf state.context (selectedSection before)) j := by
  induction h with
  | init =>
      intro before between align argument n hsplit
      exact absurd hsplit.symm (List.append_ne_nil_of_right_ne_nil _ (List.cons_ne_nil _ _))
  | step reached processed ih =>
      rename_i done line last state state'
      intro before between align argument n hsplit hargument hvalue hquiet
      obtain ⟨hnames, hcurrent⟩ := reached.sections
      have hsteps := processed.steps hnames
      rcases concat_eq_append_cons hsplit with ⟨rfl, rfl, rfl⟩ | ⟨between, rfl, rfl⟩
      · -- the `.align` itself
        have hstep := hsteps.step
        rw [← hcurrent]
        generalize sectionOf state'.context state.context.current.name = s' at hstep
        have hsame := hstep
        cases hstep with
        | emit emits =>
            rw [argument_of_emits emits rfl] at hargument
            cases hargument
        | align directive aligned =>
            obtain rfl := Option.some.inj (directive.symm.trans hargument)
            obtain ⟨j, -, hj, hround, hmax⟩ := alignSection_roundUp aligned
            obtain rfl := Except.ok.inj (hvalue.symm.trans hj)
            refine ⟨j, rfl, ?_, ?_⟩
            · rw [hround]
              exact dvd_roundUp (Nat.two_pow_pos j) _
            · obtain ⟨i, hi⟩ := reached.alignment state.context.current.name
              rw [hnames.sectionOf_current] at hi
              obtain ⟨k, -, hk⟩ := hsame.alignment hi
              refine ⟨k, ?_, hk⟩
              rw [← Nat.pow_le_pow_iff_right (Nat.lt_succ_self 1), ← hk, hmax]
              exact Nat.le_max_right _ _
        | locate directive =>
            rw [argument_unique directive (by decide)] at hargument
            cases hargument
        | keep _ noAlign =>
            rw [noAlign] at hargument
            cases hargument
      · obtain ⟨j, rfl, haligned⟩ := ih rfl hargument hvalue hquiet.of_append
        refine ⟨j, rfl, ?_⟩
        by_cases hname : selectedSection before = state.context.current.name
        · have hselected : selectedSection (before ++ [align] ++ between)
              = selectedSection before := by
            rw [List.append_assoc]
            exact hcurrent.symm.trans hname.symm
          obtain ⟨hsilent, hlocate⟩ := hquiet between line [] rfl hselected
          rw [hname, hnames.sectionOf_current] at haligned
          rw [hname]
          exact haligned.step hsteps.step hsilent hlocate
        · rw [hsteps.other _ hname]
          exact haligned

/-- The alignment of a section never becomes smaller. -/
theorem alignment_of_processLines {lines : List Line} {state final : DirectiveState}
    (hnames : SectionNames state.context) (h : processLines state lines = .ok final)
    {name : CString} {j : ℕ} (hj : (sectionOf state.context name).alignment.toNat = 2 ^ j) :
    ∃ k, j ≤ k ∧ (sectionOf final.context name).alignment.toNat = 2 ^ k := by
  have hinvariant := processLines_induction (fun current => SectionNames current.context ∧
    ∃ k, j ≤ k ∧ (sectionOf current.context name).alignment.toNat = 2 ^ k) ?_ lines state final
    ⟨hnames, j, Nat.le_refl _, hj⟩ h
  · exact hinvariant.2
  · rintro current line last next ⟨hcurrent, k, hle, hk⟩ hnext
    have hprocessed := processLine_eq_ok hnext
    obtain ⟨k', hle', hk'⟩ := hprocessed.alignment hcurrent hk
    exact ⟨(hprocessed.steps hcurrent).names, k', hle.trans hle', hk'⟩

end Zlvm
