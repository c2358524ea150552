import Zlvm.Lib.Alignment
import Zlvm.Link.Linker

/-!
# Where the sections lie

What the layout loop guarantees, and how `find_section` reads its table.

* `Placed` — the link section of an object's section; `Apart` — two sections that share no
  byte, and none of which is empty inside the other.
* `Layout` — the table after the loop: every section of every object, in order, inside the ROM and
  apart from the others.
* **`layout_of_foldlM`** — the loop establishes it.
* `alignAddress_eq_some`, `startAt`, `Chosen` — the address of an automatic section; `chosen_of_foldlM`
  — the loop chooses every address so.
* `StartsAtZero`, `startsAtZero_iff` — which sections lie at address 0.
* `Layout.findSection_eq`, `Layout.of_findSection` — `find_section` finds the section at its
  position, and nothing else.
-/

namespace Zlvm

open Loop Nested

/-! ## The table -/

/-- A link section made from a section of an object: only the address may differ, and only that of
an automatic section. -/
structure Placed (visit : Visit ZlImage ZlImageSection) (s : LinkSection) : Prop where
  object : s.objectIndex = visit.outerIndex
  source : s.sourceIndex = visit.innerIndex
  image : s.image = { visit.inner with address := s.image.address }
  fixed : ¬visit.inner.Automatic → s.image.address = visit.inner.address
  fits : s.image.address.toNat + s.image.dataSize ≤ romSize

theorem Placed.dataSize {visit : Visit ZlImage ZlImageSection} {s : LinkSection}
    (h : Placed visit s) : s.image.dataSize = visit.inner.dataSize := by
  rw [h.image]
  rfl

/-- Two sections that share no byte, and none of which is empty inside the other. -/
def Apart (s t : LinkSection) : Prop :=
  s.image.address.toNat + s.image.dataSize ≤ t.image.address.toNat ∨
    t.image.address.toNat + t.image.dataSize ≤ s.image.address.toNat

/-- The table of all sections. -/
structure Layout (images : List ZlImage) (sections : List LinkSection) : Prop where
  placed : List.Forall₂ Placed (visits ZlImage.sections images) sections
  apart : sections.Pairwise Apart

/-- `overlaps` answers whether a new section is apart from those before it. -/
theorem apart_of_overlaps {sections : List LinkSection} {new : LinkSection}
    (h : overlaps sections new.image.address new.image.dataSize = false) :
    ∀ s ∈ sections, Apart s new := by
  intro s hs
  have hs' := List.any_eq_false.mp h s hs
  simp only [Bool.and_eq_true, decide_eq_true_eq, not_and_or, Nat.not_lt] at hs'
  exact hs'

/-- **The layout loop.** -/
theorem layout_of_foldlM {images : List ZlImage} {state : LayoutState}
    (h : (visits ZlImage.sections images).foldlM placeSection { sections := [], cursor := 8 }
      = .ok state) : Layout images state.sections := by
  have hinv := foldlM_induction (fun done (state : LayoutState) =>
    List.Forall₂ Placed done state.sections ∧ state.sections.Pairwise Apart) h
    ⟨.nil, .nil⟩ ?_
  · exact ⟨hinv.1, hinv.2⟩
  · intro done visit rest state state' _ hP hstep
    obtain ⟨hplaced, hapart⟩ := hP
    simp only [placeSection, bind_eq_ok, require_eq_ok] at hstep
    obtain ⟨address, haddress, -, ⟨hfits, hoverlaps⟩, hstate⟩ := hstep
    obtain rfl := Except.ok.inj hstate
    have hnew : Placed visit ⟨{ visit.inner with address }, visit.outerIndex,
        visit.innerIndex⟩ := by
      refine ⟨rfl, rfl, rfl, fun hauto => ?_, hfits⟩
      rw [chooseAddress, if_neg hauto] at haddress
      exact (Except.ok.inj haddress).symm
    refine ⟨List.rel_append hplaced (.cons hnew .nil), ?_⟩
    rw [List.pairwise_append]
    refine ⟨hapart, List.pairwise_singleton _ _, fun s hs t ht => ?_⟩
    rw [List.mem_singleton.mp ht]
    exact apart_of_overlaps hoverlaps s hs

/-! ## Addresses -/

/-- **`align_address`** finds the next multiple of a power of two. -/
theorem alignAddress_eq_some {value : DWord} {alignment address : Word} {k : ℕ}
    (halignment : alignment.toNat = 2 ^ k) (h : alignAddress value alignment = some address) :
    IsLeast {m | alignment.toNat ∣ m ∧ value.toNat ≤ m} address.toNat := by
  have hpos : 0 < alignment.toNat := by
    rw [halignment]
    exact Nat.two_pow_pos k
  have hwide : alignment.toUInt64.toNat = alignment.toNat := UInt32.toNat_toUInt64 _
  have hlt := alignment.toNat_lt
  unfold alignAddress at h
  split at h
  · cases h
  · rename_i hroom
    dsimp only at h
    split at h
    · cases h
    · rename_i hsmall
      obtain rfl := Option.some.inj h
      have hroom' : value.toNat + alignment.toUInt64.toNat ≤ 2 ^ 64 := by
        have hmax : (0xFFFFFFFFFFFFFFFF : UInt64).toNat = 2 ^ 64 - 1 := rfl
        have hone : (1 : UInt64).toNat = 1 := rfl
        have hle : alignment.toUInt64 ≤ 0xFFFFFFFFFFFFFFFF := by
          rw [UInt64.le_iff_toNat_le, hwide, hmax]
          omega
        rw [gt_iff_lt, UInt64.not_lt, UInt64.le_iff_toNat_le, UInt64.toNat_add,
          UInt64.toNat_sub_of_le _ _ hle, hwide, hmax, hone] at hroom
        rw [Nat.mod_eq_of_lt (by omega)] at hroom
        omega
      have hround := Alignment.toNat_roundUp (hwide.trans halignment) hroom'
      rw [gt_iff_lt, UInt64.not_lt, UInt64.le_iff_toNat_le] at hsmall
      have hmax : (0xFFFFFFFF : UInt64).toNat = 2 ^ 32 - 1 := rfl
      rw [UInt64.toNat_toUInt32, Nat.mod_eq_of_lt (by omega), hround, hwide]
      exact Alignment.isLeast_roundUp hpos value.toNat

/-- Where the search for an automatic address starts: at the end of the section before. -/
def startAt (sections : List LinkSection) : ℕ → ℕ
  | 0 => 8
  | index + 1 => (addressAt sections index).toNat + sizeAt sections index

theorem startAt_concat (sections : List LinkSection) (s : LinkSection) {index : ℕ}
    (h : index ≤ sections.length) : startAt (sections ++ [s]) index = startAt sections index := by
  cases index with
  | zero => rfl
  | succ index =>
      rw [startAt, startAt, addressAt, addressAt, sizeAt, sizeAt,
        List.getElem?_append_left (Nat.lt_of_succ_le h)]

/-- Every section has the address that the layout loop chooses for it. -/
def Chosen (images : List ZlImage) (sections : List LinkSection) : Prop :=
  ∀ (index : ℕ) v s, (visits ZlImage.sections images)[index]? = some v →
    sections[index]? = some s →
    chooseAddress (UInt32.ofNat (startAt sections index)) v.inner = .ok s.image.address

/-- **The layout loop** chooses every address after the section before. -/
theorem chosen_of_foldlM {images : List ZlImage} {state : LayoutState}
    (h : (visits ZlImage.sections images).foldlM placeSection { sections := [], cursor := 8 }
      = .ok state) : Chosen images state.sections := by
  have hinv := foldlM_induction (fun done (state : LayoutState) =>
    done.length = state.sections.length ∧
      state.cursor = UInt32.ofNat (startAt state.sections state.sections.length) ∧
      ∀ (index : ℕ) v s, done[index]? = some v → state.sections[index]? = some s →
        chooseAddress (UInt32.ofNat (startAt state.sections index)) v.inner
          = .ok s.image.address) h ⟨rfl, rfl, fun index v s h => ?_⟩ ?_
  · exact hinv.2.2
  · cases h
  · intro done visit rest state state' _ hP hstep
    obtain ⟨hlength, hcursor, hchosen⟩ := hP
    simp only [placeSection, bind_eq_ok, require_eq_ok] at hstep
    obtain ⟨address, haddress, -, -, hstate⟩ := hstep
    obtain rfl := Except.ok.inj hstate
    refine ⟨by simp [hlength], ?_, fun index v s hv hs => ?_⟩
    · rw [List.length_append, List.length_singleton, startAt, addressAt, sizeAt,
        List.getElem?_concat_length]
      rfl
    · rcases Nat.lt_or_ge index done.length with hlt | hge
      · -- a section from before
        rw [List.getElem?_append_left hlt] at hv
        rw [List.getElem?_append_left (hlength ▸ hlt)] at hs
        rw [startAt_concat _ _ (Nat.le_of_lt (hlength ▸ hlt))]
        exact hchosen index v s hv hs
      · obtain rfl : index = done.length := by
          have hlt := (List.getElem?_eq_some_iff.mp hv).1
          rw [List.length_append, List.length_singleton] at hlt
          omega
        rw [List.getElem?_concat_length] at hv
        rw [hlength, List.getElem?_concat_length] at hs
        rw [hlength, startAt_concat _ _ (Nat.le_refl _), ← hcursor, ← Option.some.inj hv,
          ← Option.some.inj hs]
        exact haddress

/-! ## Reading the table -/

section Table

variable {images : List ZlImage} {sections : List LinkSection}

/-- What lies at a position. -/
theorem Layout.visit (h : Layout images sections) {index : ℕ} {s : LinkSection}
    (hs : sections[index]? = some s) :
    ∃ v, (visits ZlImage.sections images)[index]? = some v ∧ Placed v s := by
  obtain ⟨hlt, hget⟩ := List.getElem?_eq_some_iff.mp hs
  have hlen := h.placed.length_eq
  refine ⟨_, List.getElem?_eq_getElem (by omega), ?_⟩
  rw [← hget]
  exact h.placed.get _ hlt

/-- The link section of a section of an object. -/
theorem Layout.at_position (h : Layout images sections) {object source : ℕ} {image : ZlImage}
    {input : ZlImageSection} (himage : images[object]? = some image)
    (hinput : image.sections[source]? = some input) :
    ∃ s, sections[position ZlImage.sections images object source]? = some s ∧
      Placed ⟨image, object, input, source⟩ s := by
  have hvisit := getElem?_position himage hinput
  obtain ⟨hlt, hget⟩ := List.getElem?_eq_some_iff.mp hvisit
  have hlen := h.placed.length_eq
  refine ⟨_, List.getElem?_eq_getElem (by omega), ?_⟩
  rw [← hget]
  exact h.placed.get hlt _

/-- `find_section` finds the section of an object at its position. -/
theorem Layout.findSection_eq (h : Layout images sections) {object source : ℕ} {image : ZlImage}
    {input : ZlImageSection} (himage : images[object]? = some image)
    (hinput : image.sections[source]? = some input) :
    findSection sections object source
      = some (position ZlImage.sections images object source) := by
  obtain ⟨s, hs, hplaced⟩ := h.at_position himage hinput
  obtain ⟨hlt, hget⟩ := List.getElem?_eq_some_iff.mp hs
  rw [findSection, List.findIdx?_eq_some_iff_getElem]
  refine ⟨hlt, ?_, fun j hj hmatch => ?_⟩
  · rw [hget]
    simp [hplaced.object, hplaced.source]
  · -- an earlier match would have the same indices, hence the same position
    have hget' : sections[j]? = some sections[j] := List.getElem?_eq_getElem (by omega)
    obtain ⟨v, hv, hplaced'⟩ := h.visit hget'
    simp only [Bool.and_eq_true, beq_iff_eq] at hmatch
    have hposition := (getElem?_visits.mp hv).2.2
    rw [← hplaced'.object, ← hplaced'.source, hmatch.1, hmatch.2] at hposition
    omega

/-- What `find_section` finds is the section of an object. -/
theorem Layout.of_findSection (h : Layout images sections) {object source index : ℕ}
    (hfind : findSection sections object source = some index) :
    ∃ image input, images[object]? = some image ∧ image.sections[source]? = some input ∧
      index = position ZlImage.sections images object source := by
  rw [findSection, List.findIdx?_eq_some_iff_getElem] at hfind
  obtain ⟨hlt, hmatch, -⟩ := hfind
  simp only [Bool.and_eq_true, beq_iff_eq] at hmatch
  obtain ⟨v, hv, hplaced⟩ := h.visit (List.getElem?_eq_getElem hlt)
  obtain ⟨houter, hinner, hposition⟩ := getElem?_visits.mp hv
  rw [← hplaced.object, hmatch.1] at houter hposition
  rw [← hplaced.source, hmatch.2] at hinner hposition
  exact ⟨_, _, houter, hinner, hposition⟩

/-- Every section of the table is inside the ROM. -/
theorem Layout.fits (h : Layout images sections) {s : LinkSection} (hs : s ∈ sections) :
    s.image.address.toNat + s.image.dataSize ≤ romSize := by
  obtain ⟨index, hindex⟩ := List.mem_iff_getElem?.mp hs
  obtain ⟨v, -, hplaced⟩ := h.visit hindex
  exact hplaced.fits

/-! ## The addresses of the table -/

/-- The end of the section before is inside the ROM, too. -/
theorem Layout.startAt_le (h : Layout images sections) (index : ℕ) :
    startAt sections index ≤ romSize := by
  cases index with
  | zero =>
      show 8 ≤ 4096
      decide
  | succ index =>
      rw [startAt, addressAt, sizeAt]
      cases hs : sections[index]? with
      | none => exact Nat.zero_le _
      | some s => exact h.fits (List.mem_of_getElem? hs)

/-- **The address of an automatic section** is the next aligned one after the section before. -/
theorem Layout.automatic (h : Layout images sections) (hchosen : Chosen images sections)
    {index k : ℕ} {v : Visit ZlImage ZlImageSection} {s : LinkSection}
    (hv : (visits ZlImage.sections images)[index]? = some v) (hs : sections[index]? = some s)
    (hauto : v.inner.Automatic) (halignment : v.inner.alignment.toNat = 2 ^ k) :
    IsLeast {m | v.inner.alignment.toNat ∣ m ∧ startAt sections index ≤ m}
      s.image.address.toNat := by
  have haddress := hchosen index v s hv hs
  rw [chooseAddress, if_pos hauto, orElse_eq_ok] at haddress
  have hleast := alignAddress_eq_some halignment haddress
  have hle := h.startAt_le index
  rw [romSize] at hle
  rwa [UInt32.toNat_toUInt64, UInt32.toNat_ofNat', Nat.mod_eq_of_lt (by omega)] at hleast

/-- The sections that lie at address 0: those located there, and automatic ones behind an empty
one. -/
inductive StartsAtZero (inputs : List ZlImageSection) : ℕ → Prop
  | located {index : ℕ} {s : ZlImageSection} (listed : inputs[index]? = some s)
      (address : s.address = 0) (flag : s.flags &&& 1 ≠ 0) : StartsAtZero inputs index
  | follows {index : ℕ} {s t : ZlImageSection} (before : StartsAtZero inputs index)
      (listed : inputs[index]? = some s) (empty : s.dataSize = 0)
      (next : inputs[index + 1]? = some t) (automatic : t.Automatic) :
      StartsAtZero inputs (index + 1)

theorem startsAtZero_of_fixed {inputs : List ZlImageSection} {index : ℕ} {input : ZlImageSection}
    (hin : inputs[index]? = some input) (hfixed : ¬input.Automatic) :
    StartsAtZero inputs index ↔ input.address = 0 := by
  constructor
  · intro hstarts
    cases hstarts with
    | located listed address flag =>
        obtain rfl := Option.some.inj (hin.symm.trans listed)
        exact address
    | follows before listed empty next automatic =>
        obtain rfl := Option.some.inj (hin.symm.trans next)
        exact absurd automatic hfixed
  · intro hzero
    exact .located hin hzero fun hflag => hfixed ⟨hzero, hflag⟩

/-- Only addresses, flags and sizes matter. -/
theorem StartsAtZero.congr {inputs inputs' : List ZlImageSection}
    (h : inputs.map (fun s => (s.address, s.flags, s.dataSize))
      = inputs'.map fun s => (s.address, s.flags, s.dataSize)) {index : ℕ}
    (hstarts : StartsAtZero inputs index) : StartsAtZero inputs' index := by
  have hget : ∀ {index : ℕ} {s : ZlImageSection}, inputs[index]? = some s →
      ∃ s', inputs'[index]? = some s' ∧
        (s'.address, s'.flags, s'.dataSize) = (s.address, s.flags, s.dataSize) := by
    intro index s hs
    have hindex := congrArg (·[index]?) h
    simp only [List.getElem?_map, hs, Option.map_some] at hindex
    exact Option.map_eq_some_iff.mp hindex.symm
  induction hstarts with
  | located listed address flag =>
      obtain ⟨s', hs', heq⟩ := hget listed
      simp only [Prod.mk.injEq] at heq
      exact .located hs' (heq.1.trans address) (heq.2.1 ▸ flag)
  | follows before listed empty next automatic ih =>
      obtain ⟨s', hs', heq⟩ := hget listed
      obtain ⟨t', ht', heq'⟩ := hget next
      simp only [Prod.mk.injEq] at heq heq'
      refine .follows ih hs' (heq.2.2.trans empty) ht' ⟨heq'.1.trans automatic.1, ?_⟩
      rw [heq'.2.1]
      exact automatic.2

/-- **What the linker places at address 0.** -/
theorem Layout.startsAtZero_iff (h : Layout images sections) (hchosen : Chosen images sections)
    (halignment : ∀ input ∈ images.flatMap ZlImage.sections, ∃ k, input.alignment.toNat = 2 ^ k) :
    ∀ (index : ℕ) (s : LinkSection), sections[index]? = some s →
      (s.image.address = 0 ↔ StartsAtZero (images.flatMap ZlImage.sections) index) := by
  have hinput : ∀ {index : ℕ} {s : LinkSection}, sections[index]? = some s →
      ∃ v, (visits ZlImage.sections images)[index]? = some v ∧ Placed v s ∧
        (images.flatMap ZlImage.sections)[index]? = some v.inner := by
    intro index s hs
    obtain ⟨v, hv, hplaced⟩ := h.visit hs
    refine ⟨v, hv, hplaced, ?_⟩
    rw [← map_inner_visits, List.getElem?_map, hv]
    rfl
  intro index
  induction index with
  | zero =>
      intro s hs
      obtain ⟨v, hv, hplaced, hin⟩ := hinput hs
      by_cases hauto : v.inner.Automatic
      · -- the first automatic section is placed after the first eight bytes
        obtain ⟨k, hk⟩ := halignment _ (List.mem_of_getElem? hin)
        have hge : 8 ≤ s.image.address.toNat := (h.automatic hchosen hv hs hauto hk).1.2
        refine iff_of_false (fun hzero => ?_) (fun hstarts => ?_)
        · rw [hzero] at hge
          exact absurd hge (by decide)
        · cases hstarts with
          | located listed address flag =>
              obtain rfl := Option.some.inj (hin.symm.trans listed)
              exact flag hauto.2
      · rw [hplaced.fixed hauto, startsAtZero_of_fixed hin hauto]
  | succ index ih =>
      intro s hs
      obtain ⟨v, hv, hplaced, hin⟩ := hinput hs
      by_cases hauto : v.inner.Automatic
      · obtain ⟨k, hk⟩ := halignment _ (List.mem_of_getElem? hin)
        have hleast := h.automatic hchosen hv hs hauto hk
        have hlt : index < sections.length := by
          have := (List.getElem?_eq_some_iff.mp hs).1
          omega
        obtain ⟨u, hu⟩ : ∃ u, sections[index]? = some u := ⟨_, List.getElem?_eq_getElem hlt⟩
        obtain ⟨w, hw, hplaced', hin'⟩ := hinput hu
        have hstart : startAt sections (index + 1)
            = u.image.address.toNat + w.inner.dataSize := by
          rw [startAt, addressAt, sizeAt, hu]
          exact congrArg (u.image.address.toNat + ·) hplaced'.dataSize
        constructor
        · intro hzero
          have hle := hleast.1.2
          rw [hzero, hstart] at hle
          have hzero' : (0 : Word).toNat = 0 := rfl
          rw [hzero'] at hle
          refine .follows ((ih u hu).mp ?_) hin' (by omega) hin hauto
          exact UInt32.toNat_inj.mp (by rw [hzero']; omega)
        · intro hstarts
          cases hstarts with
          | located listed address flag =>
              obtain rfl := Option.some.inj (hin.symm.trans listed)
              exact absurd hauto.2 flag
          | follows before listed empty next automatic =>
              obtain rfl := Option.some.inj (hin'.symm.trans listed)
              have hzero := (ih u hu).mpr before
              have hle : s.image.address.toNat ≤ 0 :=
                hleast.2 ⟨Nat.dvd_zero _, by rw [hstart, hzero, empty]; rfl⟩
              exact UInt32.toNat_inj.mp (Nat.le_zero.mp hle)
      · rw [hplaced.fixed hauto, startsAtZero_of_fixed hin hauto]

end Table

end Zlvm
