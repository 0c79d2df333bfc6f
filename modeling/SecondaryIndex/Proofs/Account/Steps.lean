import SecondaryIndex.Proofs.Account

namespace SecondaryIndex.Balanced

open Loan

variable {e e' : Engine} {files : List DataFile} {made held : List Segment} {kept : List DataFile}

theorem id_lt (h : Balanced e files made held kept) {s : Segment} (hs : s ∈ made) :
    s.id < e.segments.size := by
  have hmem := List.mem_map_of_mem (f := Segment.id) hs
  rwa [h.numbered, List.mem_range] at hmem

theorem file_lt (h : Balanced e files made held kept) {f : DataFile} (hf : f ∈ files) :
    f.id < e.files.size := by
  have hmem := List.mem_map_of_mem (f := DataFile.id) hf
  rwa [h.listed, List.mem_range] at hmem

theorem lentFrom_older {cs cs' : Array Cursor}
    (h : ∀ i : Nat, i < cs.size → cs'[i]?.map Cursor.still = cs[i]?.map Cursor.still) :
    lentFrom 0 cs' = lentFrom 0 cs ++ lentFrom cs.size cs' := by
  have hstill : ∀ l : List Cursor, l.flatMap Cursor.lent =
      (l.map Cursor.still).flatMap Cursor.lent := fun l => by
    rw [List.flatMap_map]
    exact congrArg (List.flatMap · l) (funext fun c => c.lent_still.symm)
  have htake : (cs'.toList.take cs.size).map Cursor.still = cs.toList.map Cursor.still := by
    apply List.ext_getElem?
    intro i
    rw [List.getElem?_map, List.getElem?_map, List.getElem?_take, Array.getElem?_toList,
      Array.getElem?_toList]
    split
    next hi => exact h i hi
    next hi => rw [Array.getElem?_eq_none (Nat.not_lt.1 hi)]
  have hall : ∀ cs : Array Cursor, lentFrom 0 cs = cs.toList.flatMap Cursor.lent := fun _ => rfl
  calc lentFrom 0 cs'
      = (cs'.toList.take cs.size ++ cs'.toList.drop cs.size).flatMap Cursor.lent := by
        rw [List.take_append_drop, hall]
    _ = (cs'.toList.take cs.size).flatMap Cursor.lent ++ lentFrom cs.size cs' :=
        List.flatMap_append
    _ = lentFrom 0 cs ++ lentFrom cs.size cs' := by rw [hstill, htake, ← hstill, hall cs]

theorem borrowed {P : List Segment → Prop} {sessions : Array Session} {H : List Nat}
    (h : Balanced e files made held kept)
    (hP : ∀ segments, P segments → segments.Nodup ∧ ∀ s ∈ segments, s ∈ made)
    (hb : Borrowed P { e with sessions } e' [] H) : Balanced e' files made held kept := by
  have hsize : e'.segments.size = e.segments.size := by
    have hreaders : e'.segments.map SegmentState.reader = e.segments.map SegmentState.reader := by
      apply Array.ext_getElem?
      intro i
      rw [Array.getElem?_map, hb.segments i, Array.getElem?_map, Option.map_map]
      rfl
    simpa using congrArg Array.size hreaders
  have hlent : lentFrom 0 e'.cursors = lentFrom 0 e.cursors ++ lentFrom e.cursors.size e'.cursors :=
    lentFrom_older hb.older
  have hrefs : ∀ s ∈ made, e'.refs s = e.refs s +
      (lentFrom e.cursors.size e'.cursors).count s.id := by
    intro s hs
    have hlt := h.id_lt hs
    have hstate := hb.segments s.id
    rw [List.append_nil] at hstate
    change e'.segment? s = (e.segment? s).map _ at hstate
    have hi : e.segment? s = some e.segments[s.id] := Array.getElem?_eq_getElem hlt
    rw [Engine.refs, hstate, Engine.refs, hi]
    rfl
  refine { h with numbered := ?_, listed := ?_, lenders := ?_, segments := ?_, files := ?_ }
  · rw [h.listed, hb.untouched.files]
  · rw [h.numbered, hsize]
  · intro x c m segments hc hs
    by_cases hx : x < e.cursors.size
    · obtain ⟨c', hc', hstill⟩ := Option.map_eq_some_iff.1
        ((hb.older x hx).symm.trans (by rw [hc]; rfl))
      have hblank : c'.source.blank = c.source.blank := congrArg Cursor.source hstill
      rw [hs] at hblank
      exact h.lenders x c' m segments hc' (Source.eq_of_blank_eq hblank rfl)
    · exact hP segments (hb.lenders x c m segments (Nat.not_lt.1 hx) hc hs).2
  · intro s hs
    rw [hrefs s hs, h.segments s hs, hlent, List.count_append]
    omega
  · intro i state hi
    rw [hb.untouched.files] at hi
    rw [h.files i state hi, unreleased_congr fun s hs => ?_]
    -- A segment without references has not been borrowed.
    rw [hrefs s hs]
    refine ⟨fun hzero => ?_, fun hzero => by omega⟩
    suffices hnone : s.id ∉ lentFrom e.cursors.size e'.cursors by
      rw [hzero, List.count_eq_zero.2 hnone]
    intro hmem
    obtain ⟨state', hstate', hne⟩ := hb.alive s.id (by simpa using hmem)
    apply hne
    change e.segments[s.id]? = some state' at hstate'
    rwa [Engine.refs, Engine.segment?, hstate'] at hzero

theorem createFile {f : DataFile} (h : Balanced e files made held kept)
    (hf : f.id = e.files.size) :
    Balanced { e with files := e.files.push { refs := 1 } } (files ++ [f]) made held
      (f :: kept) := by
  refine ⟨?_, h.numbered, fun s hs => by simp [h.known s hs], ?_, h.lenders, h.holders, h.segments,
    fun i state hi => ?_⟩
  · rw [List.map_append, h.listed, Array.size_push, List.range_succ, List.map_singleton, hf]
  · intro g hg
    rcases List.mem_cons.1 hg with rfl | hg
    · simp
    · simp [h.keepers g hg]
  change (e.files.push { refs := 1 })[i]? = some state at hi
  change _ = (((e.unreleased made).map Segment.file ++ f :: kept).map DataFile.id).count i
  rw [(List.perm_middle.map DataFile.id).count_eq, List.map_cons, List.count_cons, hf]
  rw [Array.getElem?_push] at hi
  split at hi
  next hi' =>
    cases hi
    rw [List.count_eq_zero.2, hi', beq_self_eq_true, if_pos rfl]
    intro hmem
    obtain ⟨g, hg, hid⟩ := List.mem_map.1 hmem
    have hg' : g ∈ files := by
      rcases List.mem_append.1 hg with hg | hg
      · obtain ⟨s, hs, rfl⟩ := List.mem_map.1 hg
        exact h.known s (List.mem_of_mem_filter hs)
      · exact h.keepers g hg
    have := h.file_lt hg'
    omega
  next hne =>
    rw [h.files i state hi, if_neg (by simpa using Ne.symm hne), Nat.add_zero]

theorem pinned {fs : List DataFile} (h : Balanced e files made held kept) (he : OnlyFiles e e')
    (hp : DataFile.Pinned e.files e'.files (fs.map DataFile.id)) (hfs : ∀ f ∈ fs, f ∈ files) :
    Balanced e' files made held (fs ++ kept) := by
  obtain ⟨files', rfl⟩ := he
  refine { h with listed := ?_, keepers := ?_, files := fun i state hi => ?_ }
  · have hmap : files'.map FileState.compacted = e.files.map FileState.compacted := by
      apply Array.ext_getElem?
      intro i
      rw [Array.getElem?_map, Array.getElem?_map, hp i, Option.map_map]
      rfl
    have hsize : files'.size = e.files.size := by simpa using congrArg Array.size hmap
    rw [h.listed, hsize]
  · intro f hf
    exact (List.mem_append.1 hf).elim (hfs f) (h.keepers f)
  change files'[i]? = some state at hi
  rw [hp i] at hi
  obtain ⟨state₀, hstate₀, rfl⟩ := Option.map_eq_some_iff.1 hi
  change state₀.refs + _ = (((e.unreleased made).map Segment.file ++ (fs ++ kept)).map _).count i
  rw [h.files i state₀ hstate₀]
  simp only [List.map_append, List.count_append]
  omega

theorem releaseFile {f : DataFile} (h : Balanced e files made held (f :: kept)) :
    Ensures f.release e fun r e' => r = .ok () ∧ OnlyFiles e e' ∧
      Balanced e' files made held kept := by
  have hperm : (((e.unreleased made).map Segment.file ++ f :: kept).map DataFile.id).Perm
      (f.id :: ((e.unreleased made).map Segment.file ++ kept).map DataFile.id) :=
    List.perm_middle.map DataFile.id
  have hlt := h.file_lt (h.keepers f (by simp))
  have hpos : (e.file f).refs ≠ 0 := by
    have hi : e.files[f.id]? = some e.files[f.id] := Array.getElem?_eq_getElem hlt
    rw [Engine.file, Array.getD_eq_getD_getElem?, hi, Option.getD_some, h.files f.id _ hi,
      hperm.count_eq, List.count_cons_self]
    omega
  rw [Ensures, DataFile.release_apply, if_neg hpos]
  refine ⟨rfl, ⟨_, rfl⟩, { h with listed := ?_, keepers := ?_, files := ?_ }⟩
  · rw [h.listed, Engine.updateFile, Array.size_modify]
  · exact fun g hg => h.keepers g (List.mem_cons_of_mem f hg)
  · refine count_modify h.files (fun state hstate => ?_) fun j hj => ?_
    · rw [hstate, hperm.count_eq]
      exact congrArg (· - 1) List.count_cons_self
    · exact (List.count_cons_of_ne hj).symm.trans (hperm.count_eq j).symm

theorem releaseFiles {fs : List DataFile} (h : Balanced e files made held (fs ++ kept)) :
    Ensures (DataFile.releaseAll fs) e fun _ e' =>
      OnlyFiles e e' ∧ Balanced e' files made held kept := by
  refine Act.ensures_allQuietly (I := fun rest e' => OnlyFiles e e' ∧
    Balanced e' files made held (rest ++ kept)) ⟨.refl e, h⟩ ?_
  rintro f rest e' ⟨he, h'⟩
  exact h'.releaseFile.mono fun _ _ ⟨_, he', h''⟩ => ⟨he.trans he', h''⟩

theorem markCompacted (h : Balanced e files made held kept) (f : DataFile) :
    Balanced (e.updateFile f fun s => { s with compacted := true }) files made held kept := by
  refine { h with
    listed := ?_
    files := count_modify h.files (fun _ hstate => hstate) fun _ _ => rfl }
  rw [h.listed, Engine.updateFile, Array.size_modify]

theorem retireFiles {fs : List DataFile} (h : Balanced e files made held (fs ++ kept)) :
    Ensures (BaseTable.retire fs) e fun r e' => r = .ok () ∧ OnlyFiles e e' ∧
      Balanced e' files made held kept := by
  induction fs generalizing e with
  | nil => exact ⟨rfl, .refl e, h⟩
  | cons f rest ih =>
    have hmarked : OnlyFiles e (e.updateFile f fun s => { s with compacted := true }) := ⟨_, rfl⟩
    rw [BaseTable.retire, DataFile.markCompacted, ensures_modify_bind]
    refine (h.markCompacted f).releaseFile.bind_ok ?_
    rintro e₁ ⟨he₁, h₁⟩
    refine (ih h₁).mono ?_
    rintro _ e₂ ⟨hr, he₂, h₂⟩
    exact ⟨hr, (hmarked.trans he₁).trans he₂, h₂⟩

theorem count_id_eq_zero {l : List Segment} {i : Nat} (hne : ∀ t ∈ made, t.id ≠ i)
    (hl : ∀ t ∈ l, t ∈ made) : (l.map Segment.id).count i = 0 := by
  rw [List.count_eq_zero]
  intro hmem
  obtain ⟨t, ht, hid⟩ := List.mem_map.1 hmem
  exact hne t (hl t ht) hid

theorem count_lent_eq_zero (h : Balanced e files made held kept) {i : Nat}
    (hne : ∀ t ∈ made, t.id ≠ i) : (lentFrom 0 e.cursors).count i = 0 := by
  rw [List.count_eq_zero, lentFrom, List.drop_zero, List.mem_flatMap]
  rintro ⟨c, hc, hid⟩
  obtain ⟨x, hx⟩ := List.mem_iff_getElem?.1 hc
  rw [Array.getElem?_toList] at hx
  rw [lent_eq] at hid
  exact List.count_eq_zero.1 (count_id_eq_zero hne (h.mem_of_lender hx)) hid

/-- A new segment is held by the one who made it, and holds its file. -/
theorem newSegment {s : Segment} (h : Balanced e files made held kept) (hfile : s.file ∈ files)
    (hs : s.id = e.segments.size) (reader : Reader) :
    Balanced
      { e.updateFile s.file fun state => { state with refs := state.refs + 1 } with
        segments := e.segments.push { reader, refs := 1 } }
      files (made ++ [s]) (s :: held) kept := by
  generalize he' : ({ e.updateFile s.file fun state => { state with refs := state.refs + 1 } with
    segments := e.segments.push { reader, refs := 1 } } : Engine) = e'
  have hcursors : e'.cursors = e.cursors := by rw [← he']; rfl
  have hsegments : e'.segments = e.segments.push { reader, refs := 1 } := by rw [← he']
  have hfiles : e'.files = e.files.modify s.file.id fun state =>
    { state with refs := state.refs + 1 } := by rw [← he']; rfl
  have hne : ∀ t ∈ made, t.id ≠ s.id := fun t ht => by
    have := h.id_lt ht
    omega
  have hrefs : ∀ t ∈ made, e'.refs t = e.refs t := fun t ht => by
    rw [Engine.refs, Engine.segment?, hsegments, Array.getElem?_push, if_neg (hs ▸ hne t ht),
      Engine.refs, Engine.segment?]
  have hnew : e'.refs s = 1 := by
    rw [Engine.refs, Engine.segment?, hsegments, hs, Array.getElem?_push_size]
    rfl
  -- Its number is new, so that the counts of older segments are not touched.
  have hunreleased : e'.unreleased (made ++ [s]) = e.unreleased made ++ [s] := by
    rw [Engine.unreleased, List.filter_append, List.filter_singleton]
    simp only [hnew]
    exact congrArg (· ++ [s]) (unreleased_congr fun t ht => by rw [hrefs t ht])
  refine ⟨?_, ?_, ?_, h.keepers, ?_, ?_, ?_, ?_⟩
  · rw [h.listed, hfiles, Array.size_modify]
  · rw [List.map_append, h.numbered, hsegments, Array.size_push, List.range_succ,
      List.map_singleton, hs]
  · intro t ht
    rcases List.mem_append.1 ht with ht | ht
    · exact h.known t ht
    · rwa [List.mem_singleton.1 ht]
  · intro x c m segments hc hsource
    obtain ⟨hnodup, hmade⟩ := h.lenders x c m segments (hcursors ▸ hc) hsource
    exact ⟨hnodup, fun t ht => List.mem_append_left _ (hmade t ht)⟩
  · intro t ht
    rcases List.mem_cons.1 ht with rfl | ht
    · simp
    · exact List.mem_append_left _ (h.holders t ht)
  · intro t ht
    rw [hcursors, List.map_cons]
    rcases List.mem_append.1 ht with ht | ht
    · rw [hrefs t ht, h.segments t ht, List.count_cons_of_ne (Ne.symm (hne t ht))]
    · rw [List.mem_singleton.1 ht, hnew, h.count_lent_eq_zero hne, List.count_cons_self,
        count_id_eq_zero hne h.holders]
  · have hperm : (((e.unreleased made ++ [s]).map Segment.file ++ kept).map DataFile.id).Perm
        (s.file.id :: ((e.unreleased made).map Segment.file ++ kept).map DataFile.id) :=
      ((List.perm_append_comm.map Segment.file).append_right kept).map DataFile.id
    rw [hunreleased, hfiles]
    refine count_modify h.files (fun state hstate => ?_) fun j hj => ?_
    · rw [hperm.count_eq, List.count_cons_self, ← hstate]
    · rw [hperm.count_eq, List.count_cons_of_ne hj]

theorem createSegment (h : Balanced e files made held kept) {file : Option DataFile}
    (hfile : ∀ f ∈ file, f ∈ files) (reader : Option Reader) (minKey maxKey : Token)
    (minTerm maxTerm : Bytes) :
    Ensures (Segment.create file reader minKey maxKey minTerm maxTerm) e fun
      | .ok s, e' => Balanced e' files (made ++ [s]) (s :: held) kept
      | .error _, e' => Balanced e' files made held kept := by
  rcases file with _ | f
  · exact h
  rcases reader with _ | reader
  · exact h
  have hretain : Ensures f.retain e fun r e' => r = .ok false ∧ e' = e ∨ r = .ok true ∧
      e' = e.updateFile f fun state => { state with refs := state.refs + 1 } := by
    rw [Ensures, DataFile.retain_apply]
    split
    · exact .inl ⟨rfl, rfl⟩
    · exact .inr ⟨rfl, rfl⟩
  rw [Segment.create]
  refine hretain.bind ?_ ?_
  · rintro b e₁ (⟨hb, he₁⟩ | ⟨hb, he₁⟩) <;> cases hb
    · rw [he₁]
      exact h
    · rw [he₁]
      exact h.newSegment (s := ⟨e.segments.size, f, minKey, maxKey, minTerm, maxTerm⟩)
        (hfile f rfl) rfl reader
  · rintro f' e₁ (⟨hr, -⟩ | ⟨hr, -⟩) <;> cases hr

end SecondaryIndex.Balanced
