import Comptime.Proofs.Footprint.Task
import Comptime.Proofs.Height
import Comptime.Proofs.Value.Read
import Comptime.Session.Basic

/-!
# Zero values and the limit on values

The zero value of a type follows from its shape, and so does the number of its scalar cells. An array
counts a cell for each element if its elements count any, so a type that passes the limit on values has
no zero value with a longer array in it. But elements that are empty structs or empty arrays count
nothing, and then neither does the array.
-/

namespace Comptime

namespace Shape

mutual
/-- The zero value of a shape. -/
def zero : Shape → Value
  | .void => .void
  | .bool => .bool false
  | .int _ _ | .enum _ => .int 0
  | .real bits => if bits = 32 then .f32 0 else .f64 0
  | .pointer | .fn => .ptr 0
  | .type => .type .void
  | .slice => .agg [.int 0, .ptr 0]
  | .array elem len => .agg (List.replicate len elem.zero)
  | .struct members => .agg (zeros members)

/-- The zero values of shapes. -/
def zeros : List Shape → List Value
  | [] => []
  | s :: rest => s.zero :: zeros rest
end

def addCells (m n : Nat) : Nat := min (m + n) (TypeTable.addressSpace - 1)

mutual
/-- The number of scalar cells, as far as a word can count. -/
def cells : Shape → Nat
  | .array elem len => min (len * elem.cells) (TypeTable.addressSpace - 1)
  | .struct members => cellsFrom 0 members
  | _ => 1

/-- The cells of members behind those that have been counted. -/
def cellsFrom (total : Nat) : List Shape → Nat
  | [] => total
  | s :: rest => cellsFrom (addCells total s.cells) rest
end

mutual
/-- Wherever there is an array that is not empty, its elements count at least one cell. -/
def counts : Shape → Bool
  | .array elem len => len == 0 || (0 < elem.cells && elem.counts)
  | .struct members => countsEach members
  | _ => true

/-- The same for each of the shapes. -/
def countsEach : List Shape → Bool
  | [] => true
  | s :: rest => s.counts && countsEach rest
end

variable {members : List Shape} {s : Shape} {i : Nat}

theorem getElem?_zeros {v} (hs : members[i]? = some s) (hv : (zeros members)[i]? = some v) : v = s.zero := by
  induction members generalizing i with
  | nil => cases hs
  | cons head rest ih =>
    cases i with
    | zero =>
      cases hs
      cases hv
      rfl
    | succ i => exact ih hs hv

theorem counts_of_countsEach (h : countsEach members = true) (hs : members[i]? = some s) : s.counts = true := by
  induction members generalizing i with
  | nil => cases hs
  | cons head rest ih =>
    obtain ⟨hhead, hrest⟩ := Bool.and_eq_true_iff.mp h
    cases i with
    | zero =>
      cases hs
      exact hhead
    | succ i => exact ih hrest hs

private theorem le_cellsFrom {total n} (hn : n ≤ total) (hword : n < TypeTable.addressSpace) :
    n ≤ cellsFrom total members := by
  induction members generalizing total with
  | nil => exact hn
  | cons head rest ih =>
    exact ih (Nat.le_min.mpr ⟨Nat.le_add_right_of_le hn, Nat.le_sub_one_of_lt hword⟩)

theorem le_cellsFrom_of_member {total n} (hs : members[i]? = some s) (hn : n ≤ s.cells)
    (hword : n < TypeTable.addressSpace) : n ≤ cellsFrom total members := by
  induction members generalizing total i with
  | nil => cases hs
  | cons head rest ih =>
    cases i with
    | zero =>
      cases hs
      have htotal : n ≤ addCells total s.cells :=
        Nat.le_min.mpr ⟨Nat.le_add_left_of_le hn, Nat.le_sub_one_of_lt hword⟩
      show n ≤ cellsFrom (addCells total s.cells) rest
      exact le_cellsFrom htotal hword
    | succ i => exact ih hs

end Shape

namespace TypeTable

variable {t : TypeTable} {fuel : Nat} {inside : List StructId} {ty : TypeId} {s : Shape}

theorem zeroAt_eq_ok (h : t.shapeAt fuel inside ty = .ok s) : t.zeroAt fuel inside ty = .ok s.zero := by
  induction fuel generalizing inside ty s with
  | zero => cases h
  | succ fuel ih =>
    rw [zeroAt]
    cases shapeAt_eq_ok.mp h with
    | scalar hk => cases hkind : t.kind ty <;> rw [hkind] at hk <;> cases hk <;> rfl
    | integer hk | enum hk => rw [hk]; rfl
    | array hk he =>
      rw [hk]
      exact bind_eq_ok.mpr ⟨_, ih he, rfl⟩
    | @struct id members shapes hk hin hm hall hroom =>
      rw [hk]
      dsimp only
      rw [if_neg (by simpa using hin), hm]
      refine map_eq_ok.mpr ⟨Shape.zeros shapes, ?_, rfl⟩
      clear h hm hroom
      induction hall with
      | nil => rfl
      | cons hs _ ihall =>
        rw [List.mapM_cons]
        exact bind_eq_ok.mpr ⟨_, ih hs, bind_eq_ok.mpr ⟨_, ihall, rfl⟩⟩

theorem cellsAt_eq (h : t.shapeAt fuel inside ty = .ok s) : t.cellsAt fuel ty = s.cells := by
  induction fuel generalizing inside ty s with
  | zero => cases h
  | succ fuel ih =>
    rw [cellsAt]
    cases shapeAt_eq_ok.mp h with
    | scalar hk => cases hkind : t.kind ty <;> rw [hkind] at hk <;> cases hk <;> rfl
    | integer hk | enum hk => rw [hk]; rfl
    | array hk he =>
      rw [hk]
      dsimp only
      rw [ih he]
      rfl
    | @struct id members shapes hk hin hm hall hroom =>
      rw [hk]
      dsimp only
      rw [hm]
      show members.foldl (fun total m => Shape.addCells total (t.cellsAt fuel m.ty)) 0 = Shape.cellsFrom 0 shapes
      generalize 0 = total
      clear h hm hroom
      induction hall generalizing total with
      | nil => rfl
      | cons hs _ ihall =>
        rw [List.foldl_cons, ih hs]
        exact ihall _

/-- An array that a value of a type is or holds. -/
inductive HasArray (t : TypeTable) : TypeId → Value → List Value → Prop
  | whole {ty elem : TypeId} {len : UInt64} {items : List Value} (kind : t.kind ty = .array elem len) :
      HasArray t ty (.agg items) items
  | element {ty elem : TypeId} {len : UInt64} {items found : List Value} {v : Value}
      (kind : t.kind ty = .array elem len) (mem : v ∈ items) (inner : HasArray t elem v found) :
      HasArray t ty (.agg items) found
  | member {ty : TypeId} {id : StructId} {members : List Member} {items found : List Value} {i : Nat}
      {m : Member} {v : Value} (kind : t.kind ty = .struct id)
      (known : (t.structDef id).members = some members) (declared : members[i]? = some m)
      (item : items[i]? = some v) (inner : HasArray t m.ty v found) :
      HasArray t ty (.agg items) found

theorem HasArray.length_le {v found} (h : t.HasArray ty v found) (hs : t.shape ty = .ok s)
    (hc : s.counts = true) (hv : v = s.zero) : found.length < addressSpace ∧ found.length ≤ s.cells := by
  induction h generalizing s with
  | @whole ty elem len items hk =>
    obtain ⟨e, he, rfl⟩ := shape_array hk hs
    cases hv
    have hword : len.toNat < addressSpace := len.toNat_lt
    rw [List.length_replicate, Shape.cells]
    refine ⟨hword, Nat.le_min.mpr ⟨?_, Nat.le_sub_one_of_lt hword⟩⟩
    rw [Shape.counts, Bool.or_eq_true, beq_iff_eq, Bool.and_eq_true, decide_eq_true_eq] at hc
    rcases hc with hempty | ⟨hpos, -⟩
    · rw [hempty]
      exact Nat.zero_le _
    · exact Nat.le_mul_of_pos_right _ hpos
  | element hk hmem _ ih =>
    obtain ⟨e, he, rfl⟩ := shape_array hk hs
    cases hv
    obtain ⟨hne, hzero⟩ := List.mem_replicate.mp hmem
    rw [Shape.counts, Bool.or_eq_true, beq_iff_eq, Bool.and_eq_true, decide_eq_true_eq] at hc
    obtain ⟨hpos, hinner⟩ := hc.resolve_left hne
    obtain ⟨hword, hle⟩ := ih he hinner hzero
    refine ⟨hword, Nat.le_min.mpr ⟨Nat.le_trans hle ?_, Nat.le_sub_one_of_lt hword⟩⟩
    exact Nat.le_mul_of_pos_left _ (Nat.pos_of_ne_zero hne)
  | @member ty id members items found i m v hk hknown hdeclared hitem _ ih =>
    obtain ⟨members', shapes, rfl, hmembers, -, hall⟩ := shape_struct hk hs
    cases hknown.symm.trans hmembers
    cases hv
    obtain ⟨hlt, rfl⟩ := List.getElem?_eq_some_iff.mp hdeclared
    have hlt' : i < shapes.length := hall.length_eq ▸ hlt
    have he := List.getElem?_eq_getElem hlt'
    obtain ⟨hword, hle⟩ := ih (hall.get hlt hlt') (Shape.counts_of_countsEach hc he) (Shape.getElem?_zeros he hitem)
    exact ⟨hword, Shape.le_cellsFrom_of_member he hle hword⟩

end TypeTable

/-! ## How deep cells are counted -/

namespace TypeTable

variable {t : TypeTable} {fuel : Nat} {ty : TypeId} {P Q : TypeId → Prop}

/-- A type counts a cell of its own, or it has a part that counts. -/
inductive Counted (t : TypeTable) (P : TypeId → Prop) (ty : TypeId) : Prop
  | own (h : ∀ fuel, t.cellsAt (fuel + 1) ty = 1)
  | element {elem : TypeId} {len : UInt64} (kind : t.kind ty = .array elem len) (pos : 0 < len.toNat) (part : P elem)
  | member {id : StructId} {members : List Member} {m : Member} (kind : t.kind ty = .struct id)
      (known : (t.structDef id).members = some members) (mem : m ∈ members) (part : P m.ty)

private theorem foldl_pos_iff (f : Member → Nat) (members total) :
    0 < List.foldl (fun total m => min (total + f m) (addressSpace - 1)) total members ↔
      0 < total ∨ ∃ m ∈ members, 0 < f m := by
  induction members generalizing total with
  | nil => simp
  | cons m rest ih =>
    have hword : 0 < addressSpace - 1 := by decide
    rw [List.foldl_cons, ih, Nat.lt_min, and_iff_left hword, Nat.add_pos_iff_pos_or_pos, or_assoc]
    simp

theorem cellsAt_pos_iff : 0 < t.cellsAt (fuel + 1) ty ↔ t.Counted (fun part => 0 < t.cellsAt fuel part) ty := by
  constructor
  · intro h
    cases hk : t.kind ty with
    | array elem len =>
      rw [cellsAt, hk] at h
      obtain ⟨hlen, helem⟩ := Nat.mul_ne_zero_iff.mp (Nat.lt_min.mp h).1.ne'
      exact .element hk (Nat.pos_of_ne_zero hlen) (Nat.pos_of_ne_zero helem)
    | struct id =>
      cases hm : (t.structDef id).members with
      | none => exact .own fun fuel => by rw [cellsAt, hk]; dsimp only; rw [hm]
      | some members =>
        rw [cellsAt, hk] at h
        dsimp only at h
        rw [hm] at h
        obtain ⟨m, hmem, hpos⟩ := ((foldl_pos_iff _ members 0).mp h).resolve_left (Nat.lt_irrefl 0)
        exact .member hk hm hmem hpos
    | _ => exact .own fun fuel => by rw [cellsAt, hk]
  · intro h
    cases h with
    | own h => rw [h fuel]; exact Nat.one_pos
    | element hk hlen helem =>
      rw [cellsAt, hk]
      exact Nat.lt_min.mpr ⟨Nat.mul_pos hlen helem, by decide⟩
    | @member id members m hk hm hmem hpos =>
      rw [cellsAt, hk]
      dsimp only
      rw [hm]
      exact (foldl_pos_iff _ members 0).mpr (.inr ⟨m, hmem, hpos⟩)

theorem Counted.imp (h : t.Counted P ty) (hPQ : ∀ part, P part → Q part) : t.Counted Q ty := by
  cases h with
  | own h => exact .own h
  | element kind pos part => exact .element kind pos (hPQ _ part)
  | member kind known mem part => exact .member kind known mem (hPQ _ part)

private theorem cellsAt_pos_succ (h : 0 < t.cellsAt fuel ty) : 0 < t.cellsAt (fuel + 1) ty := by
  induction fuel generalizing ty with
  | zero => cases h
  | succ fuel ih => exact cellsAt_pos_iff.mpr ((cellsAt_pos_iff.mp h).imp fun _ => ih)

theorem cellsAt_pos_mono {more} (hle : fuel ≤ more) (h : 0 < t.cellsAt fuel ty) : 0 < t.cellsAt more ty := by
  induction hle with
  | refl => exact h
  | step _ ih => exact cellsAt_pos_succ ih

/-- The first cell of a type is counted at this depth. -/
def CountedFirst (t : TypeTable) (ty : TypeId) (fuel : Nat) : Prop :=
  0 < t.cellsAt (fuel + 1) ty ∧ t.cellsAt fuel ty = 0

/-- The first cell below a type is the first cell of a part. -/
theorem CountedFirst.part (h : t.CountedFirst ty (fuel + 1)) : t.Has ty ∧ ∃ part, t.CountedFirst part fuel := by
  obtain ⟨hpos, hzero⟩ := h
  have hno (hp : t.Counted (fun part => 0 < t.cellsAt fuel part) ty) : False :=
    (Nat.ne_of_gt (cellsAt_pos_iff.mpr hp)) hzero
  have hfirst {part} (hpart : 0 < t.cellsAt (fuel + 1) part) (hp : ¬ 0 < t.cellsAt fuel part) :
      t.CountedFirst part fuel := ⟨hpart, Nat.eq_zero_of_not_pos hp⟩
  cases cellsAt_pos_iff.mp hpos with
  | own h => exact absurd (h fuel) (by rw [hzero]; decide)
  | element kind len part =>
    exact ⟨has_of_kind_ne (by rw [kind]; nofun), _, hfirst part fun hp => hno (.element kind len hp)⟩
  | member kind known mem part =>
    exact ⟨has_of_kind_ne (by rw [kind]; nofun), _, hfirst part fun hp => hno (.member kind known mem hp)⟩

theorem CountedFirst.unique {fuel'} (h : t.CountedFirst ty fuel) (h' : t.CountedFirst ty fuel') : fuel = fuel' := by
  have hle {m n} (hm : t.CountedFirst ty m) (hn : t.CountedFirst ty n) : n ≤ m :=
    Nat.le_of_not_lt fun hlt => Nat.ne_of_gt (cellsAt_pos_mono hlt hm.1) hn.2
  exact Nat.le_antisymm (hle h' h) (hle h h')

/-- No first cell is deeper than there are types. -/
theorem CountedFirst.le_size (h : t.CountedFirst ty fuel) : fuel ≤ t.size := by
  rcases Nat.eq_zero_or_pos fuel with rfl | hpos
  · exact Nat.zero_le _
  refine Pool.height_le_size (p := t.kinds) (P := fun ty fuel => 0 < fuel ∧ t.CountedFirst ty fuel)
    (fun _ _ _ h h' => h.2.unique h'.2) (fun ty depth h => ?_) (fun ty depth hpos h => ?_) ⟨hpos, h⟩
  · obtain ⟨depth, rfl⟩ := Nat.exists_eq_succ_of_ne_zero h.1.ne'
    exact h.2.part.1
  · obtain ⟨part, hpart⟩ := h.2.part.2
    exact ⟨part, hpos, hpart⟩

/-- A type that counts at any depth counts at that of all measures. -/
private theorem cells_pos (h : 0 < t.cellsAt fuel ty) : 0 < t.cells ty := by
  classical
  have hex : ∃ n, 0 < t.cellsAt n ty := ⟨fuel, h⟩
  obtain ⟨n, hn⟩ : ∃ n, Nat.find hex = n + 1 :=
    Nat.exists_eq_succ_of_ne_zero fun hzero => Nat.lt_irrefl 0 ((Nat.find_eq_zero hex).mp hzero)
  have hfirst : t.CountedFirst ty n :=
    ⟨hn ▸ Nat.find_spec hex, Nat.eq_zero_of_not_pos (Nat.find_min hex (hn ▸ Nat.lt_succ_self n))⟩
  have henough : n + 1 ≤ t.shapeFuel :=
    Nat.le_trans (Nat.succ_le_succ hfirst.le_size) (Nat.le_mul_of_pos_left _ (Nat.succ_pos _))
  exact cellsAt_pos_mono henough hfirst.1

theorem length_le_cells {elem : TypeId} {len : UInt64} (hk : t.kind ty = .array elem len) (helem : 0 < t.cells elem) :
    len.toNat ≤ t.cells ty := by
  rcases Nat.eq_zero_or_pos len.toNat with hzero | hpos
  · rw [hzero]
    exact Nat.zero_le _
  -- the array counts, so its elements do at the depth at which it counts them
  have harray : 0 < t.cells ty := cells_pos (cellsAt_pos_iff.mpr (.element hk hpos helem))
  obtain ⟨fuel, hfuel⟩ : ∃ fuel, t.shapeFuel = fuel + 1 :=
    Nat.exists_eq_succ_of_ne_zero (by simp [shapeFuel])
  rw [cells, hfuel, cellsAt, hk] at harray ⊢
  have hpart := (Nat.mul_ne_zero_iff.mp (Nat.lt_min.mp harray).1.ne').2
  exact Nat.le_min.mpr ⟨Nat.le_mul_of_pos_right _ (Nat.pos_of_ne_zero hpart), Nat.le_sub_one_of_lt len.toNat_lt⟩

end TypeTable

/-! ## The limit -/

namespace Analysis

variable {c : Context} {t t' : Tables} {ty : TypeId} {span : Span} {l : Layout}

private theorem cells_le_of_valueLayout (h : valueLayout ty span c t = .ok l t') :
    ∃ s, t.types.shape ty = .ok s ∧ s.cells ≤ c.config.maxValueSize := by
  obtain ⟨layout, t1, hlayout, h⟩ := bind_eq_ok.mp h
  unfold layoutOf at hlayout
  rw [reads_bind types_reads, TypeTable.layout] at hlayout
  cases hs : t.types.shape ty with
  | error e =>
    rw [hs] at hlayout
    exact absurd hlayout layoutHalt_ne_ok
  | ok s =>
    rw [hs] at hlayout
    cases hlayout
    rw [reads_bind read_reads, reads_bind types_reads, TypeTable.cells, TypeTable.cellsAt_eq hs] at h
    refine ⟨s, rfl, Nat.le_of_not_lt fun hover => ?_⟩
    dsimp only at h
    rw [if_pos (by simp [hover])] at h
    obtain ⟨_, t2, hquoted, h⟩ := bind_eq_ok.mp h
    cases hquoted
    cases h

/-- A type that passes the limit on values has a zero value, and no array in it has more elements than the
limit, if the elements of every array count. An array whose elements count has a cell for each of them, whether
or not it passes the limit. -/
theorem zero_within_limit (h : valueLayout ty span c t = .ok l t')
    (counts : ∀ s, t.types.shape ty = .ok s → s.counts = true) :
    (∃ z, t.types.zero ty = .ok z ∧
      ∀ found, t.types.HasArray ty z found → found.length ≤ c.config.maxValueSize) ∧
    ∀ a elem len, t.types.kind a = .array elem len → 0 < t.types.cells elem → len.toNat ≤ t.types.cells a := by
  obtain ⟨s, hs, hlimit⟩ := cells_le_of_valueLayout h
  refine ⟨⟨s.zero, TypeTable.zeroAt_eq_ok hs, fun found hfound => ?_⟩, fun a elem len hk helem => ?_⟩
  · exact Nat.le_trans (hfound.length_le hs (counts s hs) rfl).2 hlimit
  · exact TypeTable.length_le_cells hk helem

/-! ## Bytes and nothing -/

/-- Tables with an empty struct, an array of five bytes and one of five empty structs. -/
def nothings : Tables :=
  let types := (TypeTable.initial.declareStruct "Nothing" .dummy).1.completeStruct 0 []
  { Tables.initial with types := ((types.array .u8 5).1.array 14 5).1 }

/-- Where values have a limited size. -/
def limited (limit : Nat) : Context := ⟨{ Config.default with maxValueSize := limit }, .none, default, 0, none⟩

/-- Five bytes are five cells. -/
theorem zero_within_limit_bytes :
    (∃ z, nothings.types.zero 15 = .ok z ∧
      ∀ found, nothings.types.HasArray 15 z found → found.length ≤ 5) ∧
    ∀ a elem len, nothings.types.kind a = .array elem len → 0 < nothings.types.cells elem →
      len.toNat ≤ nothings.types.cells a := by
  have haccepted : valueLayout 15 .dummy (limited 5) nothings = .ok ⟨5, 1⟩ nothings := rfl
  have hshape : nothings.types.shape 15 = .ok (.array (.int 8 false) 5) := rfl
  refine zero_within_limit haccepted fun s hs => ?_
  obtain rfl : .array (.int 8 false) 5 = s := Except.ok.inj (hshape.symm.trans hs)
  rfl

/-- Five empty structs are no cells, so they pass any limit. -/
theorem nothings_uncounted :
    nothings.types.cells 16 = 0 ∧ valueLayout 16 .dummy (limited 4) nothings = .ok ⟨0, 1⟩ nothings ∧
      ∃ z found, nothings.types.zero 16 = .ok z ∧ nothings.types.HasArray 16 z found ∧ found.length = 5 :=
  ⟨rfl, rfl, .agg (List.replicate 5 (.agg [])), _, rfl, .whole rfl, rfl⟩

end Analysis

end Comptime
