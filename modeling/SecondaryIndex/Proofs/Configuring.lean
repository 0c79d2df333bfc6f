import Mathlib.Algebra.GroupWithZero.Nat
import SecondaryIndex.Options

namespace SecondaryIndex

namespace ConfigValue

variable {α : Type} {kind : ConfigValue → Option α} {members : List (String × ConfigValue)}
  {name : String} {v : ConfigValue} {default a : α}

theorem kind_of_read? (h : read? kind members name default = some a)
    (hv : member? name members = some v) : kind v = some a := by
  rw [read?, hv] at h
  exact h

theorem member?_filter (keep : String → Bool) (hname : keep name = true) :
    member? name (members.filter fun m => keep m.1) = member? name members := by
  rw [member?, member?, List.find?_filter]
  congr 2
  funext m
  by_cases hm : m.1 = name
  · simp [hm, hname]
  · simp [hm]

theorem read?_filter (keep : String → Bool) (hname : keep name = true) :
    read? kind (members.filter fun m => keep m.1) name default =
      read? kind members name default := by
  rw [read?, read?, member?_filter keep hname]

def Numberless : ConfigValue → Prop
  | null | text _ | array _ | object _ => True
  | bool _ | integer _ | decimal _ _ => False

theorem Numberless.integer?_eq_none (h : v.Numberless) : v.integer? = none := by
  cases v with
  | bool | integer | decimal => exact h.elim
  | _ => rfl

theorem integer?_of_size? {n : Int} (h : v.size? = some n) : v.integer? = some n := by
  cases v with
  | bool => cases h
  | _ => exact h

end ConfigValue

namespace Options

open ConfigValue

/-- Whether the interval is one that can be read. -/
def Settled (o : Options) : Prop :=
  1 ≤ o.checkpointInterval.toNat ∧ o.checkpointInterval.toNat < 2 ^ 63

/-- What is not positive counts as one. -/
theorem toNat_intervalOf (n : Int64) : ((intervalOf n).toNat : Int) = max 1 n.toInt := by
  rw [intervalOf]
  split
  next h =>
    have hle : n.toInt ≤ 0 := Int64.le_iff_toInt_le.1 h
    change (1 : Int) = _
    omega
  next h =>
    have hpos : 0 < n.toInt := by
      apply Int.not_le.1
      intro hle
      exact h (Int64.le_iff_toInt_le.2 hle)
    have hnat : n.toUInt64.toNat = n.toInt.toNat :=
      Int64.toNat_toUInt64_of_le (Int64.le_iff_toInt_le.2 (Int.le_of_lt hpos))
    omega

theorem intervalOf_bounds (n : Int64) :
    1 ≤ (intervalOf n).toNat ∧ (intervalOf n).toNat < 2 ^ 63 := by
  have hnat := toNat_intervalOf n
  have hlt := n.toInt_lt
  omega

theorem intervalOf_ofInt {n : UInt64} (hpos : 1 ≤ n.toNat) (hlt : n.toNat < 2 ^ 63) :
    intervalOf (Int64.ofInt n.toNat) = n := by
  have hread : (Int64.ofInt n.toNat).toInt = n.toNat :=
    Int64.toInt_ofInt_of_le (by omega) (by omega)
  have hnat := toNat_intervalOf (Int64.ofInt n.toNat)
  apply UInt64.toNat_inj.1
  omega

theorem ofInt_toNat (n : UInt64) : UInt64.ofInt n.toNat = n := by
  have hlt := n.toNat_lt
  have hmod : ((n.toNat : Int) % 2 ^ 64).toNat = n.toNat := by omega
  rw [UInt64.ofInt, hmod, UInt64.ofNat_toNat]

def numeric : List String := ["time_quota_ms", "checkpoint_interval", "result_limit"]

def known : List String := "log_level" :: numeric

/-- Configurations that are no object, or have a member of the wrong kind. A truth value is of the
wrong kind for a size only. -/
inductive Void : ConfigValue → Prop
  | shapeless {config : ConfigValue} (h : ∀ members, config ≠ .object members) : Void config
  | number {members : List (String × ConfigValue)} {name : String} {v : ConfigValue}
      (hname : name ∈ numeric) (hv : member? name members = some v) (h : v.Numberless) :
      Void (.object members)
  | limit {members : List (String × ConfigValue)} {b : Bool}
      (hv : member? "result_limit" members = some (.bool b)) : Void (.object members)
  | level {members : List (String × ConfigValue)} {v : ConfigValue}
      (hv : member? "log_level" members = some v) (h : ∀ s, v ≠ .text s) : Void (.object members)

variable {members : List (String × ConfigValue)} {o : Options}

/-- Options come of four members that all can be read. -/
structure Reads (members : List (String × ConfigValue)) (o : Options) : Prop where
  quota : ∃ n, read? integer? members "time_quota_ms" 5000 = some n ∧ o.timeQuota = Int64.ofInt n
  interval : ∃ n, read? integer? members "checkpoint_interval" 1024 = some n ∧
    o.checkpointInterval = intervalOf (Int64.ofInt n)
  limit : ∃ n, read? size? members "result_limit" 0 = some n ∧ o.resultLimit = UInt64.ofInt n
  level : read? text? members "log_level" "info" = some o.logLevel

theorem reads_of_ofMembers? (h : ofMembers? members = some o) : Reads members o := by
  obtain ⟨quota, hquota, h⟩ := Option.bind_eq_some_iff.1 h
  obtain ⟨interval, hinterval, h⟩ := Option.bind_eq_some_iff.1 h
  obtain ⟨limit, hlimit, h⟩ := Option.bind_eq_some_iff.1 h
  obtain ⟨level, hlevel, h⟩ := Option.bind_eq_some_iff.1 h
  cases h
  exact ⟨⟨quota, hquota, rfl⟩, ⟨interval, hinterval, rfl⟩, ⟨limit, hlimit, rfl⟩, hlevel⟩

theorem Reads.integer?_ne_none (h : Reads members o) {name : String} (hname : name ∈ numeric)
    {v : ConfigValue} (hv : member? name members = some v) : v.integer? ≠ none := by
  have hread : ∃ n, v.integer? = some n := by
    simp only [numeric, List.mem_cons, List.not_mem_nil, or_false] at hname
    rcases hname with rfl | rfl | rfl
    · exact h.quota.imp fun _ hn => kind_of_read? hn.1 hv
    · exact h.interval.imp fun _ hn => kind_of_read? hn.1 hv
    · exact h.limit.imp fun _ hn => integer?_of_size? (kind_of_read? hn.1 hv)
  obtain ⟨n, hn⟩ := hread
  rw [hn]
  exact Option.some_ne_none n

theorem Reads.limit_ne_bool (h : Reads members o) {b : Bool} :
    member? "result_limit" members ≠ some (.bool b) := by
  intro hv
  obtain ⟨n, hn, -⟩ := h.limit
  cases kind_of_read? hn hv

theorem Reads.level_eq (h : Reads members o) {v : ConfigValue}
    (hv : member? "log_level" members = some v) : v = .text o.logLevel := by
  have htext := kind_of_read? h.level hv
  cases v with
  | text s => rw [Option.some.inj htext]
  | _ => cases htext

theorem ofConfig_void {config : ConfigValue} (h : Void config) : ofConfig config = {} := by
  cases h with
  | shapeless h =>
    cases config with
    | object members => exact absurd rfl (h members)
    | _ => rfl
  | @number members name v hname hv h =>
    cases hread : ofMembers? members with
    | none => rw [ofConfig, hread, Option.getD_none]
    | some o =>
      have hsome := (reads_of_ofMembers? hread).integer?_ne_none hname hv
      exact absurd h.integer?_eq_none hsome
  | @limit members b hv =>
    cases hread : ofMembers? members with
    | none => rw [ofConfig, hread, Option.getD_none]
    | some o => exact absurd hv (reads_of_ofMembers? hread).limit_ne_bool
  | @level members v hv h =>
    cases hread : ofMembers? members with
    | none => rw [ofConfig, hread, Option.getD_none]
    | some o => exact absurd ((reads_of_ofMembers? hread).level_eq hv) (h o.logLevel)

theorem settled_ofConfig (config : ConfigValue) : (ofConfig config).Settled := by
  have hdefault : ({} : Options).Settled := ⟨by decide, by decide⟩
  cases config with
  | object members =>
    cases hread : ofMembers? members with
    | none =>
      rw [ofConfig, hread]
      exact hdefault
    | some o =>
      obtain ⟨n, -, hinterval⟩ := (reads_of_ofMembers? hread).interval
      rw [ofConfig, hread, Option.getD_some, Settled, hinterval]
      exact intervalOf_bounds _
  | _ => exact hdefault

theorem ofConfig_filter (keep : String → Bool) (hkeep : ∀ name ∈ known, keep name = true)
    (members : List (String × ConfigValue)) :
    ofConfig (.object (members.filter fun m => keep m.1)) = ofConfig (.object members) := by
  have hread : ∀ {α : Type} (kind : ConfigValue → Option α) (name : String) (default : α),
      name ∈ known → read? kind (members.filter fun m => keep m.1) name default =
        read? kind members name default :=
    fun _ _ _ hname => read?_filter keep (hkeep _ hname)
  rw [ofConfig, ofConfig, ofMembers?, ofMembers?, hread _ _ _ (by decide), hread _ _ _ (by decide),
    hread _ _ _ (by decide), hread _ _ _ (by decide)]

theorem ofConfig_toConfig (o : Options) : ofConfig o.toConfig =
    { o with checkpointInterval := intervalOf (Int64.ofInt o.checkpointInterval.toNat) } := by
  have hread : ofConfig o.toConfig = ⟨Int64.ofInt o.timeQuota.toInt,
      intervalOf (Int64.ofInt o.checkpointInterval.toNat), UInt64.ofInt o.resultLimit.toNat,
      o.logLevel⟩ := by
    rfl
  rw [hread, Int64.ofInt_toInt, ofInt_toNat]

/-- Options are read back as they were written just if their interval can be read. -/
theorem ofConfig_toConfig_iff : ofConfig o.toConfig = o ↔ o.Settled := by
  constructor
  · intro h
    rw [← h]
    exact settled_ofConfig _
  · intro h
    rw [ofConfig_toConfig, intervalOf_ofInt h.1 h.2]

/-- Reading never fails and gives options that survive writing and reading. So do all options with
an interval that can be read. A void configuration gives the defaults, and members that are not
known make no difference. -/
theorem ofConfig_survives : (∀ config, (ofConfig config).Settled ∧
      ofConfig (ofConfig config).toConfig = ofConfig config) ∧
    (∀ o : Options, o.Settled → ofConfig o.toConfig = o) ∧
    (∀ config, Void config → ofConfig config = {}) ∧
    ∀ members, ofConfig (.object (members.filter fun m => m.1 ∈ known)) =
      ofConfig (.object members) := by
  refine ⟨fun config => ?_, fun o => ofConfig_toConfig_iff.2, fun _ => ofConfig_void, ?_⟩
  · have hsettled := settled_ofConfig config
    exact ⟨hsettled, ofConfig_toConfig_iff.2 hsettled⟩
  · exact ofConfig_filter (fun name => name ∈ known) fun name hname => decide_eq_true hname

/-- The limit is good, but it is lost with the level. -/
example : ofConfig (.object [("result_limit", .integer 7), ("log_level", .null)]) = {} := by rfl

end Options
end SecondaryIndex
