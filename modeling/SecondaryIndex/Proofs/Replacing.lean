import SecondaryIndex.Proofs.Account.Sessions
import SecondaryIndex.Proofs.Indexes

namespace SecondaryIndex

def FileState.letGo (state : FileState) : FileState where
  refs := state.refs - 1
  compacted := true

theorem Engine.lt_size_of_refs {e : Engine} {f : DataFile} (h : 0 < (e.file f).refs) :
    f.id < e.files.size := by
  by_contra hout
  rw [Engine.file, Array.getD_eq_getD_getElem?, Array.getElem?_eq_none (Nat.le_of_not_lt hout)] at h
  exact absurd h (Nat.lt_irrefl 0)

namespace BaseTable

variable {e e' : Engine} {f : DataFile} {files removed added : List DataFile}

/-- What stays comes first, in its order. Of what is new each file comes once. -/
theorem replaced_eq (live removed added : List DataFile) :
    replaced live removed added = live.filter (· ∉ removed) ++
      (added.filter (· ∉ live.filter (· ∉ removed))).eraseDups := by
  -- The fold starts from what stays, but has any list before it after its first steps.
  have hfold : ∀ (added next : List DataFile),
      added.foldl (fun next f => if f ∈ next then next else next ++ [f]) next =
        next ++ (added.filter (· ∉ next)).eraseDups := by
    intro added
    induction added with
    | nil => simp
    | cons f rest ih =>
      intro next
      rw [List.foldl_cons, ih]
      by_cases hf : f ∈ next
      · rw [if_pos hf, List.filter_cons_of_neg (by simpa using hf)]
      · have hrest : (rest.filter (· ∉ next)).filter (fun g => !g == f) =
            rest.filter (· ∉ next ++ [f]) := by
          rw [List.filter_filter]
          refine List.filter_congr fun g _ => ?_
          rw [Bool.eq_iff_iff]
          simp [and_comm, not_or]
        rw [if_neg hf, List.filter_cons_of_pos (by simpa using hf), List.eraseDups_cons, hrest,
          List.append_assoc, List.singleton_append]
  exact hfold added _

theorem catalogInvariant_distinct : CatalogInvariant True fun e => e.live.Nodup where
  same he hcontents _ _ := by
    rw [hcontents.live]
    exact he
  replace _ _ he := Ledger.Covers.nodup_replaced he
  register _ _ he _ := he
  create _ _ he _ _ := he
  unpublish he _ := he
  enter _ _ _ he _ _ := he
  attach _ _ _ he _ _ := he
  retire _ he _ := he

/-- Whatever is done, fair or not, no file comes to be live twice. -/
theorem distinct_of_reachable (h : Reachable e) : e.live.Nodup :=
  h.catalog catalogInvariant_distinct .nil

theorem file_markCompacted (hsize : f.id < e.files.size) (g : DataFile) :
    (f.markCompacted e).2.file g =
      if f.id = g.id then { e.file g with compacted := true } else e.file g := by
  refine (Engine.file_updateFile e f g _).trans (if_congr ?_ rfl rfl)
  exact and_iff_left_of_imp fun hid => hid ▸ hsize

theorem ensures_retire_cons {rest : List DataFile} {Q : Except Fault Unit → Engine → Prop} :
    Ensures (retire (f :: rest)) e Q ↔
      Ensures (f.release >>= fun _ => retire rest) (f.markCompacted e).2 Q := by
  rw [retire, ensures_bind]
  rfl

theorem ensures_letGo (hheld : 0 < (e.file f).refs) {rest : List DataFile}
    {Q : Except Fault Unit → Engine → Prop}
    (h : ∀ e', OnlyFiles e e' →
      (∀ g, e'.file g = if f.id = g.id then (e.file g).letGo else e.file g) →
        Ensures (retire rest) e' Q) : Ensures (retire (f :: rest)) e Q := by
  have hmarked := file_markCompacted (Engine.lt_size_of_refs hheld)
  have hreleased : (f.release (f.markCompacted e).2).1 = .ok () := by
    rw [DataFile.release_apply, if_neg]
    rw [hmarked f, if_pos rfl]
    exact Nat.ne_of_gt hheld
  rw [ensures_retire_cons, ensures_bind, Ensures, hreleased]
  refine h _ ?_ fun g => ?_
  · rw [DataFile.release_snd]
    exact ⟨_, rfl⟩
  · rw [DataFile.file_release, hmarked g]
    by_cases hid : f.id = g.id
    · rw [if_pos hid, if_pos hid, if_pos hid, FileState.letGo]
    · rw [if_neg hid, if_neg hid, if_neg hid]
      rfl

theorem ensures_retire (hids : (files.map DataFile.id).Nodup)
    (hheld : ∀ f ∈ files, 0 < (e.file f).refs) :
    Ensures (retire files) e fun r e' => r = .ok () ∧ OnlyFiles e e' ∧
      ∀ g, e'.file g = if g.id ∈ files.map DataFile.id then (e.file g).letGo else e.file g := by
  induction files generalizing e with
  | nil => exact ⟨rfl, .refl e, fun g => rfl⟩
  | cons f rest ih =>
    rw [List.map_cons, List.nodup_cons] at hids
    refine ensures_letGo (hheld f List.mem_cons_self) fun e₁ honly₁ hfile₁ => ?_
    -- The numbers differ, so that the others are still as they were.
    have hrest : ∀ g ∈ rest, e₁.file g = e.file g := by
      intro g hg
      have hne : ¬ f.id = g.id := fun hid => hids.1 (hid ▸ List.mem_map_of_mem hg)
      rw [hfile₁, if_neg hne]
    refine (ih hids.2 fun g hg => ?_).mono ?_
    · rw [hrest g hg]
      exact hheld g (List.mem_cons_of_mem f hg)
    · rintro r e' ⟨hr, honly, hfile⟩
      refine ⟨hr, honly₁.trans honly, fun g => ?_⟩
      rw [hfile g, hfile₁ g]
      by_cases hid : f.id = g.id
      · have hmem : g.id ∈ (f :: rest).map DataFile.id := hid ▸ List.mem_cons_self
        rw [if_neg (hid ▸ hids.1), if_pos hid, if_pos hmem]
      · rw [if_neg hid]
        refine if_congr ?_ rfl rfl
        rw [List.map_cons, List.mem_cons, or_iff_right (Ne.symm hid)]

theorem ensures_replace {Q : Except Fault Unit → Engine → Prop} :
    Ensures (replace removed added) e Q ↔ Ensures (retire (removed.filter (· ∈ e.live)))
      { e with live := replaced e.live removed added } Q := by
  rw [replace, ensures_get_bind, ensures_modify_bind]

/-- Each live file has the reference of the table, and none is replaced. -/
structure Standing (e : Engine) : Prop where
  distinct : (e.live.map DataFile.id).Nodup
  held : ∀ f ∈ e.live, 0 < (e.file f).refs
  current : ∀ f ∈ e.live, (e.file f).compacted = false

/-- A replacement that removes each live file at most once and adds none of these again. -/
structure Fit (removed added : List DataFile) (e : Engine) : Prop where
  once : (removed.filter (· ∈ e.live)).Nodup
  apart : ∀ f ∈ removed, f ∈ e.live → f ∉ added
  named : ∀ f ∈ e.live ++ added, ∀ g ∈ e.live ++ added, f.id = g.id → f = g
  fresh : ∀ f ∈ added, f ∉ e.live → 0 < (e.file f).refs ∧ (e.file f).compacted = false

structure Replaced (removed added : List DataFile) (e e' : Engine) : Prop where
  live : e'.live = e.live.filter (· ∉ removed) ++
    (added.filter (· ∉ e.live.filter (· ∉ removed))).eraseDups
  standing : Standing e'
  /-- A file that leaves loses the reference of the table. -/
  left : ∀ f ∈ e.live, f ∉ e'.live →
    (e'.file f).refs + 1 = (e.file f).refs ∧ (e'.file f).compacted = true
  others : ∀ f, (∀ g ∈ e.live, g ∉ e'.live → g.id ≠ f.id) → e'.file f = e.file f
  frame : ∃ live files, e' = { e with live, files }

namespace Fit

variable (h : Fit removed added e)
include h

theorem mem_leaving :
    f ∈ removed.filter (· ∈ e.live) ↔ f ∈ e.live ∧ f ∉ replaced e.live removed added := by
  rw [List.mem_filter, decide_eq_true_eq, Ledger.Covers.mem_replaced]
  have := h.apart f
  tauto

theorem nodup_leaving : ((removed.filter (· ∈ e.live)).map DataFile.id).Nodup := by
  refine List.pairwise_map.2 (h.once.imp_of_mem fun hf hg hne hid => hne ?_)
  exact h.named _ (List.mem_append_left _ (h.mem_leaving.1 hf).1) _
    (List.mem_append_left _ (h.mem_leaving.1 hg).1) hid

omit h in
theorem mem_append_of_mem_replaced (hf : f ∈ replaced e.live removed added) :
    f ∈ e.live ++ added := by
  rw [List.mem_append]
  exact (Ledger.Covers.mem_replaced.1 hf).imp_left And.left

theorem not_leaving (hf : f ∈ replaced e.live removed added) :
    f.id ∉ (removed.filter (· ∈ e.live)).map DataFile.id := by
  intro hid
  obtain ⟨g, hg, hid⟩ := List.mem_map.1 hid
  obtain ⟨hlive, hleft⟩ := h.mem_leaving.1 hg
  have hgf : g = f :=
    h.named g (List.mem_append_left _ hlive) f (mem_append_of_mem_replaced hf) hid
  exact hleft (hgf ▸ hf)

theorem nodup_replaced (hlive : e.live.Nodup) :
    ((replaced e.live removed added).map DataFile.id).Nodup := by
  refine List.pairwise_map.2 ((Ledger.Covers.nodup_replaced hlive).imp_of_mem
    fun hf hg hne hid => hne ?_)
  exact h.named _ (mem_append_of_mem_replaced hf) _ (mem_append_of_mem_replaced hg) hid

theorem held_replaced (hstanding : Standing e) (hf : f ∈ replaced e.live removed added) :
    0 < (e.file f).refs ∧ (e.file f).compacted = false := by
  by_cases hlive : f ∈ e.live
  · exact ⟨hstanding.held f hlive, hstanding.current f hlive⟩
  · refine h.fresh f ?_ hlive
    exact (Ledger.Covers.mem_replaced.1 hf).resolve_left fun hf => hlive hf.1

end Fit

theorem Standing.replace (h : Standing e) (hfit : Fit removed added e) :
    Ensures (replace removed added) e fun r e' => r = .ok () ∧ Replaced removed added e e' := by
  rw [ensures_replace]
  refine (ensures_retire (e := { e with live := replaced e.live removed added }) hfit.nodup_leaving
    fun f hf => h.held f (hfit.mem_leaving.1 hf).1).mono ?_
  rintro r _ ⟨hr, ⟨files, rfl⟩, hfile⟩
  have hstays : ∀ f ∈ replaced e.live removed added,
      ({ e with live := replaced e.live removed added, files } : Engine).file f = e.file f :=
    fun f hf => (hfile f).trans (if_neg (hfit.not_leaving hf))
  refine ⟨hr, replaced_eq _ _ _, ⟨hfit.nodup_replaced (h.distinct.of_map _), fun f hf => ?_,
    fun f hf => ?_⟩, fun f hf hf' => ?_, fun f hf => ?_, _, _, rfl⟩
  · rw [hstays f hf]
    exact (hfit.held_replaced h hf).1
  · rw [hstays f hf]
    exact (hfit.held_replaced h hf).2
  · rw [hfile f, if_pos (List.mem_map_of_mem (hfit.mem_leaving.2 ⟨hf, hf'⟩))]
    exact ⟨Nat.sub_add_cancel (h.held f hf), rfl⟩
  · rw [hfile f, if_neg]
    · rfl
    · intro hid
      obtain ⟨g, hg, hid⟩ := List.mem_map.1 hid
      exact hf g (hfit.mem_leaving.1 hg).1 (hfit.mem_leaving.1 hg).2 hid

section

variable (hlive : f ∈ e.live)
include hlive

/-- Removed twice, a live file loses another's reference too. -/
theorem replace_repeated (hrefs : 1 < (e.file f).refs) :
    Ensures (replace [f, f] []) e fun r e' =>
      r = .ok () ∧ f ∉ e'.live ∧ (e'.file f).refs + 2 = (e.file f).refs := by
  have hleaving : [f, f].filter (· ∈ e.live) = [f, f] := by simp [hlive]
  rw [ensures_replace, hleaving]
  refine ensures_letGo (e := { e with live := replaced e.live [f, f] [] })
    (Nat.lt_trans Nat.zero_lt_one hrefs) fun e₁ honly₁ hfile₁ => ?_
  have hrefs₁ : (e₁.file f).refs = (e.file f).refs - 1 := by
    rw [hfile₁, if_pos rfl]
    rfl
  refine ensures_letGo (by omega) fun e₂ honly₂ hfile₂ => ?_
  rw [retire, ensures_pure]
  refine ⟨rfl, ?_, ?_⟩
  · obtain ⟨_, rfl⟩ := honly₁.trans honly₂
    intro hmem
    simpa using Ledger.Covers.mem_replaced.1 hmem
  · rw [hfile₂, if_pos rfl, FileState.letGo, hrefs₁]
    dsimp only
    omega

/-- Without another's reference to lose, the second removal fails. -/
theorem replace_repeated_fails (hrefs : (e.file f).refs = 1) :
    Ensures (replace [f, f] []) e fun r _ => r = .error (.unreferencedFile f.text) := by
  have hleaving : [f, f].filter (· ∈ e.live) = [f, f] := by simp [hlive]
  have hheld : 0 < (e.file f).refs := by omega
  rw [ensures_replace, hleaving]
  refine ensures_letGo (e := { e with live := replaced e.live [f, f] [] }) hheld
    fun e₁ _ hfile₁ => ?_
  have hrefs₁ : (e₁.file f).refs = 0 := by
    rw [hfile₁, if_pos rfl]
    exact Nat.sub_eq_zero_of_le (Nat.le_of_eq hrefs)
  have hmarked : ((f.markCompacted e₁).2.file f).refs = 0 := by
    have hsame := congrArg FileState.refs
      (Engine.file_updateFile e₁ f f fun s => { s with compacted := true })
    refine (hsame.trans ?_).trans hrefs₁
    split <;> rfl
  rw [ensures_retire_cons, ensures_bind, Ensures, DataFile.release_apply, if_pos hmarked]

/-- Removed and added, a live file stays, but is marked and loses the reference of the table. -/
theorem replace_same (hrefs : 0 < (e.file f).refs) :
    Ensures (replace [f] [f]) e fun r e' => r = .ok () ∧ f ∈ e'.live ∧
      (e'.file f).refs + 1 = (e.file f).refs ∧ (e'.file f).compacted = true := by
  have hleaving : [f].filter (· ∈ e.live) = [f] := by simp [hlive]
  rw [ensures_replace, hleaving]
  refine ensures_letGo (e := { e with live := replaced e.live [f] [f] }) hrefs
    fun e' honly hfile => ?_
  rw [retire, ensures_pure]
  refine ⟨rfl, ?_, ?_⟩
  · obtain ⟨_, rfl⟩ := honly
    exact Ledger.Covers.mem_replaced.2 (.inr List.mem_cons_self)
  · rw [hfile, if_pos rfl]
    exact ⟨Nat.sub_add_cancel hrefs, rfl⟩

end

/-- Files are made, referenced and given back, and the table is compacted; but the reference of the
table is no one else's to give back, and each replacement fits. -/
def Fair (e : Engine) : Operation → Prop
  | .createFile .. | .retainFile _ => True
  | .releaseFile f => ∀ g ∈ e.live, f.id = g.id → 1 < (e.file g).refs
  | .replaceFiles removed added => Fit removed added e
  | _ => False

/-- The engines that such runs lead to. -/
inductive Stored : Engine → Prop
  | start : Stored {}
  | step {e : Engine} (op : Operation) (h : Stored e) (hfair : Fair e op) : Stored (op.effect e)

theorem Standing.of_live (h : Standing e) (hlive : e'.live = e.live)
    (hfile : ∀ f ∈ e.live, 0 < (e'.file f).refs ∧ (e'.file f).compacted = (e.file f).compacted) :
    Standing e' where
  distinct := hlive ▸ h.distinct
  held f hf := (hfile f (hlive ▸ hf)).1
  current f hf := (hfile f (hlive ▸ hf)).2.trans (h.current f (hlive ▸ hf))

theorem file_createFile (generation : Nat) (path : String) (minKey maxKey : Token)
    (hheld : 0 < (e.file f).refs) :
    (Operation.effect (.createFile generation path minKey maxKey) e).file f = e.file f := by
  have hsize := Engine.lt_size_of_refs hheld
  change (e.files.push _).getD f.id _ = e.files.getD f.id _
  rw [Array.getD_eq_getD_getElem?, Array.getD_eq_getD_getElem?, Array.getElem?_push_lt hsize,
    Array.getElem?_eq_getElem hsize]

theorem Standing.effect (h : Standing e) {op : Operation} (hfair : Fair e op) :
    Standing (op.effect e) := by
  cases op with
  | createFile generation path minKey maxKey =>
    refine h.of_live rfl fun f hf => ?_
    rw [file_createFile generation path minKey maxKey (h.held f hf)]
    exact ⟨h.held f hf, rfl⟩
  | retainFile f =>
    rw [Operation.effect, DataFile.retain_apply, apply_ite Prod.snd]
    split
    · exact h
    · refine h.of_live rfl fun g hg => ?_
      rw [Engine.file_updateFile]
      split
      · exact ⟨Nat.succ_pos _, rfl⟩
      · exact ⟨h.held g hg, rfl⟩
  | releaseFile f =>
    refine h.of_live ((DataFile.framed_release f).frame e).live fun g hg => ?_
    rw [Operation.effect, DataFile.file_release]
    refine ⟨?_, rfl⟩
    have hheld := h.held g hg
    split
    next hid =>
      -- If it is a live file, this is not the reference that the table has on it.
      have := hfair g hg hid
      dsimp only
      omega
    next => exact hheld
  | replaceFiles removed added => exact (h.replace hfair).2.standing
  | _ => exact hfair.elim

theorem Stored.standing (h : Stored e) : Standing e := by
  induction h with
  | start => exact ⟨.nil, nofun, nofun⟩
  | step op _ hfair ih => exact ih.effect hfair

/-- In every such run each replacement succeeds and changes just what it should. -/
theorem Stored.replaces (h : Stored e) (hfit : Fit removed added e) :
    Ensures (replace removed added) e fun r e' => r = .ok () ∧ Replaced removed added e e' :=
  h.standing.replace hfit

-- Two files are merged into a third while a query holds the first one.
def lowFile : DataFile := ⟨0, 1, "a", 0, 9⟩

def highFile : DataFile := ⟨1, 2, "b", 10, 19⟩

def wideFile : DataFile := ⟨2, 3, "c", 0, 19⟩

def twoFiles : Engine :=
  Operation.effects
    [.createFile 1 "a" 0 9, .createFile 2 "b" 10 19, .createFile 3 "c" 0 19,
      .replaceFiles [] [lowFile], .replaceFiles [] [highFile], .retainFile lowFile] {}

theorem twoFiles_merged : Stored twoFiles ∧
    Ensures (replace [highFile, lowFile] [wideFile]) twoFiles fun r e' =>
      r = .ok () ∧ e'.live = [wideFile] ∧ (e'.file lowFile).refs = 1 ∧
        (e'.file lowFile).compacted = true := by
  have hstored : Stored twoFiles :=
    .step (.retainFile lowFile) (.step (.replaceFiles [] [highFile])
      (.step (.replaceFiles [] [lowFile]) (.step (.createFile 3 "c" 0 19)
        (.step (.createFile 2 "b" 10 19) (.step (.createFile 1 "a" 0 9) .start trivial)
          trivial) trivial)
        ⟨by decide, by decide, by decide, by decide⟩)
      ⟨by decide, by decide, by decide, by decide⟩) trivial
  have hfit : Fit [highFile, lowFile] [wideFile] twoFiles :=
    ⟨by decide, by decide, by decide, by decide⟩
  have hlive : twoFiles.live = [lowFile, highFile] := by decide
  have hrefs : (twoFiles.file lowFile).refs = 2 := by decide
  refine ⟨hstored, (hstored.replaces hfit).mono fun r e' ⟨hr, h⟩ => ?_⟩
  have hlive' : e'.live = [wideFile] := by
    rw [h.live, hlive]
    decide
  have hleft := h.left lowFile (hlive ▸ by decide) (hlive' ▸ by decide)
  exact ⟨hr, hlive', by omega, hleft.2⟩

end BaseTable
end SecondaryIndex
