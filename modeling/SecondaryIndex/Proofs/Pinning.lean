import Mathlib.Data.List.Basic
import SecondaryIndex.BaseTable
import SecondaryIndex.Proofs.Ensures
import SecondaryIndex.Proofs.Releasing

namespace SecondaryIndex

def OnlyFiles (e e' : Engine) : Prop := ∃ files, e' = { e with files }

theorem OnlyFiles.refl (e : Engine) : OnlyFiles e e := ⟨_, rfl⟩

theorem OnlyFiles.trans {e e' e'' : Engine} (h : OnlyFiles e e') (h' : OnlyFiles e' e'') :
    OnlyFiles e e'' := by
  obtain ⟨_, rfl⟩ := h
  obtain ⟨_, rfl⟩ := h'
  exact ⟨_, rfl⟩

namespace DataFile

/-- Each file has one reference more for each time it is listed. -/
def Pinned (files files' : Array FileState) (ids : List Nat) : Prop :=
  ∀ i : Nat, files'[i]? = files[i]?.map fun s => { s with refs := s.refs + ids.count i }

variable {files files' : Array FileState} {ids ids' : List Nat} {e : Engine}

theorem Pinned.refl (files : Array FileState) : Pinned files files [] := by simp [Pinned]

theorem Pinned.eq (h : Pinned files files' []) : files' = files := by
  apply Array.ext_getElem?
  intro i
  simp [h i]

theorem Pinned.refs_ne {e e' : Engine} (h : Pinned e.files e'.files ids) {f : DataFile}
    (hf : (e.file f).refs ≠ 0) : (e'.file f).refs ≠ 0 := by
  have hsame := h f.id
  unfold Engine.file at hf ⊢
  rw [Array.getD_eq_getD_getElem?] at hf ⊢
  rw [hsame]
  cases hfile : e.files[f.id]? with
  | none => simp [hfile] at hf
  | some state =>
    rw [hfile, Option.getD_some] at hf
    rw [Option.map_some, Option.getD_some]
    dsimp only
    omega

theorem Pinned.perm (h : Pinned files files' ids) (hids : ids.Perm ids') :
    Pinned files files' ids' := by
  intro i
  rw [h i, hids.count_eq]

theorem Pinned.retain (h : Pinned files files' ids) (f : DataFile) :
    Pinned files (files'.modify f.id fun s => { s with refs := s.refs + 1 }) (f.id :: ids) := by
  intro i
  rw [Array.getElem?_modify, h i]
  by_cases hi : f.id = i
  · subst hi
    cases files[f.id]? <;> simp [Nat.add_assoc]
  · simp [hi]

theorem Pinned.release {f : DataFile} (h : Pinned files e.files (f.id :: ids)) :
    Ensures f.release e fun _ e' => OnlyFiles e e' ∧
      Pinned files e'.files ids := by
  rw [Ensures, release_snd]
  refine ⟨⟨_, rfl⟩, fun i => ?_⟩
  change (e.files.modify f.id _)[i]? = _
  rw [Array.getElem?_modify, h i]
  by_cases hi : f.id = i
  · subst hi
    cases files[f.id]? <;> simp
  · simp [hi]

theorem Pinned.releaseAll {fs : List DataFile}
    (h : Pinned files e.files (fs.map DataFile.id ++ ids)) :
    Ensures (DataFile.releaseAll fs) e fun _ e' => OnlyFiles e e' ∧
      Pinned files e'.files ids := by
  refine Act.ensures_allQuietly (I := fun rest e' => OnlyFiles e e' ∧
    Pinned files e'.files (rest.map DataFile.id ++ ids)) ⟨.refl e, h⟩ ?_
  rintro f rest e' ⟨he, h'⟩
  refine (Pinned.release h').mono fun _ e'' ⟨he', h''⟩ => ⟨he.trans he', h''⟩

/-- Either all of the files are referenced, or nothing has changed. The first it is if no file was
without references. -/
theorem ensures_retainAll (fs : List DataFile) (e : Engine) :
    Ensures (retainAll fs) e fun r e' => OnlyFiles e e' ∧
      ∃ held, r = .ok held ∧ (∀ fs', held = some fs' → fs' = fs) ∧
        Pinned e.files e'.files ((held.getD []).map DataFile.id) ∧
        ((∀ f ∈ fs, (e.file f).refs ≠ 0) → held = some fs) := by
  induction fs generalizing e with
  | nil => exact ⟨.refl e, some [], rfl, by simp, .refl _, fun _ => rfl⟩
  | cons f rest ih =>
    have hretain : Ensures f.retain e fun r e' => OnlyFiles e e' ∧
        (r = .ok false ∧ Pinned e.files e'.files [] ∧ (e.file f).refs = 0 ∨
          r = .ok true ∧ Pinned e.files e'.files [f.id]) := by
      rw [Ensures, retain_apply]
      split
      next hzero => exact ⟨.refl e, .inl ⟨rfl, .refl _, hzero⟩⟩
      · exact ⟨⟨_, rfl⟩, .inr ⟨rfl, (Pinned.refl e.files).retain f⟩⟩
    have hnone : ∀ fs', none = some fs' → fs' = f :: rest := by
      rintro _ ⟨⟩
    rw [retainAll]
    refine hretain.bind ?_ ?_
    swap
    · rintro _ _ ⟨-, ⟨h, -⟩ | ⟨h, -⟩⟩ <;> cases h
    rintro b e₁ ⟨he₁, ⟨hb, h₁, hzero⟩ | ⟨hb, h₁⟩⟩ <;> cases hb
    · exact ⟨he₁, none, rfl, hnone, h₁, fun hall => absurd hzero (hall f List.mem_cons_self)⟩
    refine (ih e₁).bind ?_ ?_
    swap
    · rintro _ _ ⟨-, _, h, -⟩
      cases h
    rintro held e₂ ⟨he₂, _, ⟨⟩, hrest, h₂, hwhole⟩
    have hall : (∀ f' ∈ f :: rest, (e.file f').refs ≠ 0) → held = some rest := fun hall =>
      hwhole fun f' hf' => h₁.refs_ne (hall f' (List.mem_cons_of_mem f hf'))
    have hboth : Pinned e.files e₂.files (((held.getD []).map DataFile.id) ++ [f.id]) := by
      intro i
      rw [h₂ i, h₁ i]
      cases e.files[i]? <;> simp [List.count_append, Nat.add_assoc, Nat.add_comm]
    cases held with
    | some fs' =>
      obtain rfl := hrest fs' rfl
      refine ⟨he₁.trans he₂, some (f :: fs'), rfl, ?_, ?_, fun _ => rfl⟩
      · rintro _ ⟨⟩
        rfl
      · exact hboth.perm List.perm_append_comm
    | none =>
      refine (Pinned.release (f := f) hboth).quietly_bind ?_
      rintro _ e₃ ⟨he₃, h₃⟩
      exact ⟨(he₁.trans he₂).trans he₃, none, rfl, hnone, h₃, fun h =>
        absurd (hall h) (Option.some_ne_none rest).symm⟩

end DataFile

namespace BaseTable

/-- The live files that share a token with a range, none without a range. -/
def touched (live : List DataFile) : Option KeyRange → List DataFile
  | none => []
  | some range => live.filter (·.meets range)

/-- Whatever files are pinned, they are live and in the scope that is given back. These are all that
the range touches if no live file is without references. -/
theorem ensures_pin (range : Option KeyRange) (e : Engine) :
    Ensures (pin range) e fun r e' => OnlyFiles e e' ∧
      ∃ scope, r = .ok scope ∧ DataFile.Pinned e.files e'.files (scope.map DataFile.id) ∧
        scope.Sublist e.live ∧
        ((∀ f ∈ e.live, (e.file f).refs ≠ 0) → scope = touched e.live range) := by
  cases range with
  | none => exact ⟨.refl e, [], rfl, .refl _, List.nil_sublist _, fun _ => rfl⟩
  | some range =>
    rw [pin]
    refine ensures_get_bind.2 ((DataFile.ensures_retainAll _ e).bind ?_ ?_)
    · rintro held e₁ ⟨he₁, _, ⟨⟩, hall, h₁, hwhole⟩
      refine ⟨he₁, held.getD [], rfl, h₁, ?_, fun hlive => ?_⟩
      · cases held with
        | none => exact List.nil_sublist _
        | some fs' =>
          rw [Option.getD_some, hall fs' rfl]
          exact List.filter_sublist
      · rw [hwhole fun f hf => hlive f (List.mem_of_mem_filter hf)]
        rfl
    · rintro _ _ ⟨-, _, h, -⟩
      cases h

end BaseTable
end SecondaryIndex
