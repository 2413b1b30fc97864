import RegionLayout.Proofs.Rect.Numbering
import RegionLayout.Rect.Points

/-!
# Walking a rectangle

A step of a walk adds one to the number of the point: it carries over the dimensions that are at
the upper corner. The only fault is a step past the greatest signed 64 bit number.
-/

namespace RegionLayout

variable {t : CoordType} {n : Nat}

theorem lt_of_finRange_eq {low high : List (Fin n)} {d : Fin n}
    (h : List.finRange n = low ++ d :: high) : (∀ e ∈ low, e < d) ∧ ∀ e ∈ high, d < e := by
  have hsorted := List.pairwise_lt_finRange n
  rw [h, List.pairwise_append, List.pairwise_cons] at hsorted
  constructor
  · intro e he
    exact hsorted.2.2 e he d List.mem_cons_self
  · exact hsorted.2.1.1

theorem Coord.val_of_successor {c bound next : Coord t} (hlt : c < bound)
    (h : c.successor = .ok next) :
    c.val ≠ CoordType.i64.maxVal ∧ next.val = c.val + 1 := by
  have hbound := bound.le_maxVal
  have hmin := c.minVal_le
  have hlt : c.val < bound.val := hlt
  rw [successor] at h
  split at h
  case isTrue => contradiction
  case isFalse hne =>
    rw [← Except.ok.inj h]
    exact ⟨hne, val_wrap (by omega) (by omega)⟩

namespace Rect

variable {r : Rect t n} {p q : Point t n} {d : Fin n}

/-- A step carries over the dimensions `low` into `d`. -/
structure Carries (r : Rect t n) (p q : Point t n) (low : List (Fin n)) (d : Fin n)
    (high : List (Fin n)) : Prop where
  order : List.finRange n = low ++ d :: high
  full : ∀ e ∈ low, ¬ p.get e < r.hi.get e
  reset : ∀ e ∈ low, q.get e = r.lo.get e
  room : p.get d < r.hi.get d
  counted : (p.get d).val ≠ CoordType.i64.maxVal
  stepped : (q.get d).val = (p.get d).val + 1
  kept : ∀ e ∈ high, q.get e = p.get e

/-- All that a step without a fault can do. -/
theorem following_cases {next : Option (Point t n)} (h : r.following p = .ok next) :
    (next = none ∧ ∀ d, ¬ p.get d < r.hi.get d) ∨
      ∃ q low d high, next = some q ∧ r.Carries p q low d high := by
  rw [following] at h
  cases hopen : r.openDimension? p with
  | none =>
    left
    rw [hopen] at h
    refine ⟨(Except.ok.inj h).symm, ?_⟩
    intro d
    have hclosed := List.find?_eq_none.mp hopen d (List.mem_finRange d)
    simpa using hclosed
  | some d =>
    right
    rw [hopen] at h
    obtain ⟨stepped, hstepped, hnext⟩ := bind_eq_ok.mp h
    rw [pure_eq_ok] at hnext
    obtain ⟨hroom, low, high, horder, hfull⟩ := List.find?_eq_some_iff_append.mp hopen
    have hroom : p.get d < r.hi.get d := by simpa using hroom
    obtain ⟨hlow, hhigh⟩ := lt_of_finRange_eq horder
    obtain ⟨hcounted, hval⟩ := Coord.val_of_successor hroom hstepped
    refine ⟨_, low, d, high, hnext.symm, horder, ?_, ?_, hroom, hcounted, ?_, ?_⟩
    · intro e he
      simpa using hfull e he
    · intro e he
      rw [get_ofFn, if_pos (hlow e he)]
    · rw [get_ofFn, if_neg (lt_irrefl d), if_pos rfl]
      exact hval
    · intro e he
      have hde := hhigh e he
      rw [get_ofFn, if_neg (lt_asymm hde), if_neg hde.ne']

theorem Carries.mem {low high : List (Fin n)} (h : r.Carries p q low d high) (hp : p ∈ r) :
    q ∈ r := by
  intro e
  have hlo : (r.lo.get e).val ≤ (p.get e).val := (hp e).1
  have hhi : (p.get e).val ≤ (r.hi.get e).val := (hp e).2
  have he : e ∈ low ++ d :: high := h.order ▸ List.mem_finRange e
  simp only [Coord.le_def]
  rw [List.mem_append, List.mem_cons] at he
  rcases he with hlow | heq | hhigh
  · rw [h.reset e hlow]
    omega
  · have hroom : (p.get d).val < (r.hi.get d).val := h.room
    rw [heq] at hlo ⊢
    rw [h.stepped]
    omega
  · rw [h.kept e hhigh]
    exact hp e

/-- What the lower dimensions lose when they are reset is one less than what the step adds. -/
theorem Carries.number_eq {low high : List (Fin n)} (h : r.Carries p q low d high)
    (hp : p ∈ r) : r.number q = r.number p + 1 := by
  have hlo : (r.lo.get d).val ≤ (p.get d).val := (hp d).1
  have hdigit : r.digit q d = r.digit p d + 1 := by
    rw [digit, digit, h.stepped]
    omega
  calc r.number q
      = r.slots low * (r.digit p d + 1 + r.extent d * r.rank p high) := by
        rw [number, h.order, rank_append, rank, rank_of_lo h.reset, rank_congr h.kept, hdigit,
          Nat.zero_add]
    _ = r.slots low * (r.digit p d + r.extent d * r.rank p high) + r.slots low := by
        rw [Nat.add_right_comm, Nat.mul_succ]
    _ = r.slots low * r.rank p (d :: high) + (r.rank p low + 1) := by
        rw [rank_of_hi hp h.full, rank]
    _ = r.number p + 1 := by
        rw [number, h.order, rank_append]
        omega

theorem Carries.eq_of_closed {low high : List (Fin n)} {e : Fin n}
    (h : r.Carries p q low e high) (hclosed : ∀ e, e < d → ¬ p.get e < r.hi.get e)
    (hroom : p.get d < r.hi.get d) : e = d := by
  obtain ⟨_, hhigh⟩ := lt_of_finRange_eq h.order
  have hd : d ∈ low ++ e :: high := h.order ▸ List.mem_finRange d
  rw [List.mem_append, List.mem_cons] at hd
  rcases hd with hlow | heq | hhigher
  · exact absurd hroom (h.full d hlow)
  · exact heq.symm
  · exact absurd h.room (hclosed e (hhigh d hhigher))

theorem walkFrom_none (r : Rect t n) (limit : Nat) : r.walkFrom limit none = ⟨[], none⟩ := by
  cases limit with
  | zero => rfl
  | succ limit => rfl

/-- Without a fault, the numbers visited are those from that of the first point on. -/
theorem numbers_walkFrom {limit : Nat} (hp : p ∈ r)
    (h : (r.walkFrom limit (some p)).fault? = none) :
    (∀ q ∈ (r.walkFrom limit (some p)).points, q ∈ r) ∧
      (r.walkFrom limit (some p)).points.map r.number =
        (List.range' (r.number p) (r.count - r.number p)).take limit := by
  induction limit generalizing p with
  | zero => simp [walkFrom]
  | succ limit ih =>
    have hlt := number_lt hp
    obtain ⟨left, hleft⟩ : ∃ left, r.count - r.number p = left + 1 :=
      ⟨r.count - r.number p - 1, by omega⟩
    cases hnext : r.following p with
    | error f =>
      rw [walkFrom, hnext] at h
      contradiction
    | ok next =>
      simp only [walkFrom, hnext] at h ⊢
      rw [hleft, List.range'_succ, List.take_succ_cons]
      cases following_cases hnext with
      | inl hlast =>
        have hnumber := number_of_last hp hlast.2
        have hzero : left = 0 := by omega
        simp [hlast.1, walkFrom_none, hzero, hp]
      | inr hstep =>
        obtain ⟨q, low, d, high, hq, hcarries⟩ := hstep
        rw [hq] at h ⊢
        have hnumber := hcarries.number_eq hp
        have hrest : r.count - r.number q = left := by omega
        obtain ⟨hmem, hnumbers⟩ := ih (hcarries.mem hp) h
        constructor
        · intro x hx
          cases List.mem_cons.mp hx with
          | inl heq => exact heq ▸ hp
          | inr hx => exact hmem x hx
        · rw [List.map_cons, hnumbers, hnumber, ← hnumber, hrest]

/-- Along `d` the rectangle has signed 64 bit numbers, and greater coordinates as well. -/
def CrossesAt (r : Rect t n) (d : Fin n) : Prop :=
  (r.lo.get d).val ≤ CoordType.i64.maxVal ∧ CoordType.i64.maxVal < (r.hi.get d).val

instance (r : Rect t n) (d : Fin n) : Decidable (r.CrossesAt d) :=
  inferInstanceAs (Decidable (_ ∧ _))

theorem not_crossesAt (ht : t ≠ .u64) (r : Rect t n) (d : Fin n) : ¬ r.CrossesAt d := by
  have hmax : t.maxVal ≤ CoordType.i64.maxVal := by
    cases t with
    | u64 => contradiction
    | _ => decide
  intro h
  have hhi := (r.hi.get d).le_maxVal
  exact absurd h.2 (Int.not_lt.mpr (Int.le_trans hhi hmax))

theorem exists_following (hp : p ∈ r) (h : ∀ d, ¬ r.CrossesAt d) :
    ∃ next, r.following p = .ok next := by
  rw [following]
  cases hopen : r.openDimension? p with
  | none => exact ⟨none, rfl⟩
  | some d =>
    have hroom : p.get d < r.hi.get d := by simpa using List.find?_some hopen
    have hcounted : (p.get d).val ≠ CoordType.i64.maxVal := by
      intro hmax
      have hlo : (r.lo.get d).val ≤ (p.get d).val := (hp d).1
      have hhi : (p.get d).val < (r.hi.get d).val := hroom
      exact h d ⟨by omega, by omega⟩
    have hsuccessor : (p.get d).successor = .ok (Coord.wrap t ((p.get d).val + 1)) :=
      if_neg hcounted
    exact ⟨_, bind_eq_ok.mpr ⟨_, hsuccessor, rfl⟩⟩

/-- There is no step from the point with the greatest signed 64 bit number along `d` and all lower
dimensions at the upper corner. -/
theorem exists_stuck (hr : ¬ r.IsEmpty) (h : r.CrossesAt d) :
    ∃ p ∈ r, ∀ next, r.following p ≠ .ok next := by
  let edge : Coord t := ⟨CoordType.i64.maxVal, Int.le_trans (r.lo.get d).minVal_le h.1,
    Int.le_trans (Int.le_of_lt h.2) (r.hi.get d).le_maxVal⟩
  let p : Point t n := Vector.ofFn fun e =>
    if e < d then r.hi.get e else if e = d then edge else r.lo.get e
  have hedge : p.get d = edge := by rw [get_ofFn, if_neg (lt_irrefl d), if_pos rfl]
  have hroom : p.get d < r.hi.get d := hedge ▸ h.2
  have hclosed : ∀ e, e < d → ¬ p.get e < r.hi.get e := by
    intro e he
    rw [get_ofFn, if_pos he]
    exact Int.lt_irrefl _
  refine ⟨p, ?_, ?_⟩
  · intro e
    have hle := lo_le_hi hr e
    rw [get_ofFn]
    split
    case isTrue => exact ⟨hle, Int.le_refl _⟩
    case isFalse =>
      split
      case isTrue heq => exact heq ▸ ⟨h.1, Int.le_of_lt h.2⟩
      case isFalse => exact ⟨Int.le_refl _, hle⟩
  · intro next hnext
    cases following_cases hnext with
    | inl hlast => exact hlast.2 d hroom
    | inr hstep =>
      obtain ⟨q, low, e, high, _, hcarries⟩ := hstep
      have he := hcarries.eq_of_closed hclosed hroom
      apply hcarries.counted
      rw [he, hedge]

theorem fault?_walkFrom (hsteps : ∀ p ∈ r, ∃ next, r.following p = .ok next) (hp : p ∈ r)
    (limit : Nat) : (r.walkFrom limit (some p)).fault? = none := by
  induction limit generalizing p with
  | zero => rfl
  | succ limit ih =>
    obtain ⟨next, hnext⟩ := hsteps p hp
    simp only [walkFrom, hnext]
    cases following_cases hnext with
    | inl hlast => rw [hlast.1, walkFrom_none]
    | inr hstep =>
      obtain ⟨q, low, d, high, hq, hcarries⟩ := hstep
      rw [hq]
      exact ih (hcarries.mem hp)

theorem exists_following_of_mem {limit : Nat} {start : Option (Point t n)}
    (h : p ∈ (r.walkFrom limit start).points) : ∃ next, r.following p = .ok next := by
  induction limit generalizing start with
  | zero => simp [walkFrom] at h
  | succ limit ih =>
    cases start with
    | none => simp [walkFrom] at h
    | some q =>
      cases hnext : r.following q with
      | error f => simp [walkFrom, hnext] at h
      | ok next =>
        simp only [walkFrom, hnext] at h
        cases List.mem_cons.mp h with
        | inl heq => exact ⟨next, heq ▸ hnext⟩
        | inr hrest => exact ih hrest

theorem points_walkFrom {limit more : Nat} (h : limit ≤ more) (start : Option (Point t n)) :
    (r.walkFrom limit start).points = (r.walkFrom more start).points.take limit := by
  induction limit generalizing more start with
  | zero => simp [walkFrom]
  | succ limit ih =>
    obtain ⟨more, rfl⟩ : ∃ m, more = m + 1 := ⟨more - 1, by omega⟩
    cases start with
    | none => simp [walkFrom]
    | some p =>
      cases hnext : r.following p with
      | error f => simp [walkFrom, hnext]
      | ok next =>
        simp only [walkFrom, hnext, List.take_succ_cons]
        rw [ih (Nat.le_of_succ_le_succ h)]

theorem walkUpTo_of_isEmpty (h : r.IsEmpty) (limit : Nat) : r.walkUpTo limit = ⟨[], none⟩ := by
  rw [walkUpTo, firstPoint?, if_pos h, walkFrom_none]

theorem walkUpTo_of_not_isEmpty (h : ¬ r.IsEmpty) (limit : Nat) :
    r.walkUpTo limit = r.walkFrom limit (some r.lo) := by
  rw [walkUpTo, firstPoint?, if_neg h]

theorem numbers_walkUpTo {limit : Nat} (h : (r.walkUpTo limit).fault? = none) :
    (∀ p ∈ (r.walkUpTo limit).points, p ∈ r) ∧
      (r.walkUpTo limit).points.map r.number = (List.range r.count).take limit := by
  by_cases hr : r.IsEmpty
  · simp [walkUpTo_of_isEmpty hr, count_of_isEmpty hr]
  · rw [walkUpTo_of_not_isEmpty hr] at h ⊢
    have hnumbers := numbers_walkFrom (lo_mem hr) h
    rwa [number_lo, Nat.sub_zero, ← List.range_eq_range'] at hnumbers

theorem numbers_walk (h : r.walk.fault? = none) :
    (∀ p ∈ r.walk.points, p ∈ r) ∧ r.walk.points.map r.number = List.range r.count := by
  have hnumbers := numbers_walkUpTo h
  rwa [List.take_of_length_le (Nat.le_of_eq List.length_range)] at hnumbers

theorem mem_walk_iff (h : r.walk.fault? = none) : p ∈ r.walk.points ↔ p ∈ r := by
  obtain ⟨hmem, hnumbers⟩ := numbers_walk h
  constructor
  · exact hmem p
  · intro hp
    have hnumber : r.number p ∈ r.walk.points.map r.number := by
      rw [hnumbers]
      exact List.mem_range.mpr (number_lt hp)
    obtain ⟨q, hq, hqp⟩ := List.mem_map.mp hnumber
    exact eq_of_number_eq (hmem q hq) hp hqp ▸ hq

theorem fault?_walkUpTo (h : r.IsEmpty ∨ ∀ d, ¬ r.CrossesAt d) (limit : Nat) :
    (r.walkUpTo limit).fault? = none := by
  by_cases hr : r.IsEmpty
  · rw [walkUpTo_of_isEmpty hr]
  · have hsigned := h.resolve_left hr
    rw [walkUpTo_of_not_isEmpty hr]
    exact fault?_walkFrom (fun p hp => exists_following hp hsigned) (lo_mem hr) limit

/-- A walk fails exactly if there is a point and along some dimension the rectangle goes on past
the greatest signed 64 bit number. -/
theorem fault?_walk_eq_none_iff :
    r.walk.fault? = none ↔ r.IsEmpty ∨ ∀ d, ¬ r.CrossesAt d := by
  constructor
  · intro h
    by_cases hr : r.IsEmpty
    · exact .inl hr
    · right
      intro d hcrosses
      obtain ⟨p, hp, hstuck⟩ := exists_stuck hr hcrosses
      obtain ⟨next, hnext⟩ := exists_following_of_mem ((mem_walk_iff h).mpr hp)
      exact hstuck next hnext
  · intro h
    exact fault?_walkUpTo h r.count

theorem length_walkUpTo {limit : Nat} (h : (r.walkUpTo limit).fault? = none) :
    (r.walkUpTo limit).points.length = min limit r.count := by
  rw [← List.length_map r.number, (numbers_walkUpTo h).2, List.length_take, List.length_range]

theorem length_walk (h : r.walk.fault? = none) : r.walk.points.length = r.count := by
  rw [walk, length_walkUpTo h, Nat.min_self]

theorem walkUpTo_eq (h : r.IsEmpty ∨ ∀ d, ¬ r.CrossesAt d) (limit : Nat) :
    r.walkUpTo limit = ⟨r.walk.points.take limit, none⟩ := by
  have hlength := length_walkUpTo (fault?_walkUpTo h (max limit r.count))
  have hwhole : r.walk.points = (r.walkUpTo (max limit r.count)).points :=
    calc r.walk.points
        = (r.walkUpTo (max limit r.count)).points.take r.count :=
          points_walkFrom (Nat.le_max_right _ _) _
      _ = (r.walkUpTo (max limit r.count)).points := by
          apply List.take_of_length_le
          rw [hlength]
          exact Nat.min_le_right _ _
  have hpoints : (r.walkUpTo limit).points = r.walk.points.take limit := by
    rw [hwhole]
    exact points_walkFrom (Nat.le_max_left _ _) _
  rw [← hpoints, ← fault?_walkUpTo h limit]

end Rect

/-- The walk visits each point of the rectangle once, in ascending order, and the `k`-th of them,
counted from zero, is `k` written in mixed radix. -/
structure Walk.Enumerates (w : Walk t n) (r : Rect t n) : Prop where
  completes : w.fault? = none
  mem_iff : ∀ p, p ∈ w.points ↔ p ∈ r
  nodup : w.points.Nodup
  ascending : w.points.Pairwise Point.Before
  digits : ∀ k p, w.points[k]? = some p → ∀ d,
    (p.get d).val = (r.lo.get d).val + (k / r.weight d % r.extent d : Nat)

namespace Rect

variable {r : Rect t n}

theorem enumerates_walk (h : r.walk.fault? = none) : r.walk.Enumerates r := by
  obtain ⟨hmem, hnumbers⟩ := numbers_walk h
  have hnodup : (r.walk.points.map r.number).Nodup := hnumbers ▸ List.nodup_range
  have hascending : (r.walk.points.map r.number).Pairwise (· < ·) :=
    hnumbers ▸ List.pairwise_lt_range
  constructor
  case completes => exact h
  case mem_iff => exact fun p => mem_walk_iff h
  case nodup => exact hnodup.of_map
  case ascending =>
    rw [List.pairwise_map] at hascending
    apply hascending.imp_of_mem
    intro p q hp hq hlt
    exact before_of_number_lt (hmem p hp) (hmem q hq) hlt
  case digits =>
    intro k p hk d
    have hp := hmem p (List.mem_of_getElem? hk)
    have hnumber : r.number p = k := by
      have hmap : (r.walk.points.map r.number)[k]? = some (r.number p) := by
        rw [List.getElem?_map, hk, Option.map_some]
      rw [hnumbers] at hmap
      have hrange := List.getElem?_eq_some_iff.mp hmap
      simpa using hrange.2.symm
    have hlo : (r.lo.get d).val ≤ (p.get d).val := (hp d).1
    rw [← hnumber, ← digit_eq hp d, digit]
    omega

/-- A walk visits the points of the rectangle one by one, in order, and then ends. It has as many
as the volume says. An unsigned 64 bit rectangle may lie on either side of `2 ^ 63`, but must not
reach across. -/
theorem walk_enumerates (r : Rect t n) (h : t = .u64 → ∀ d, ¬ r.CrossesAt d) :
    r.walk.Enumerates r ∧
    (∀ limit, r.walkUpTo limit = ⟨r.walk.points.take limit, none⟩) ∧
    (∀ count, r.volume? = some count → r.walk.points.length = count) ∧
    (r.IsEmpty → r.walk.points = []) := by
  have hsigned : ∀ d, ¬ r.CrossesAt d := by
    intro d
    by_cases ht : t = .u64
    · exact h ht d
    · exact not_crossesAt ht r d
  have hfault := fault?_walk_eq_none_iff.mpr (.inr hsigned)
  have hlength := length_walk hfault
  refine ⟨enumerates_walk hfault, walkUpTo_eq (.inr hsigned), ?_, ?_⟩
  · intro count hcount
    rw [volume?_eq, checkedCount_eq_some_iff] at hcount
    rw [hlength, hcount.1]
  · intro hr
    rw [walk, walkUpTo_of_isEmpty hr]

/-- Two by two points from `2 ^ 63` on, up to the greatest coordinate. -/
private def beyondSigned : Rect .u64 2 :=
  ⟨#v[Coord.wrap .u64 0x8000000000000000, Coord.wrap .u64 0xfffffffffffffffe],
    #v[Coord.wrap .u64 0x8000000000000001, Coord.wrap .u64 0xffffffffffffffff]⟩

theorem walk_enumerates_beyondSigned :
    (∀ d, ¬ beyondSigned.CrossesAt d) ∧ beyondSigned.walk.Enumerates beyondSigned ∧
      beyondSigned.walk.points.length = 4 := by
  have hcrosses : ∀ d, ¬ beyondSigned.CrossesAt d := by decide
  have hwalk := walk_enumerates beyondSigned fun _ => hcrosses
  exact ⟨hcrosses, hwalk.1, hwalk.2.2.1 4 (by decide)⟩

end Rect

end RegionLayout
