import Mathlib.Algebra.Group.Nat.Defs
import Mathlib.Data.List.GetD
import Mathlib.Tactic.Common
import TraceScript.Bytes

namespace TraceScript

namespace Bytes

/-- The first bytes of some data, with zeros where the data has ended. -/
def extend (size : Nat) (data : List UInt8) : List UInt8 :=
  (data ++ List.replicate size 0).take size

/-- The eight bytes of a word. -/
def ofWord (w : UInt64) : List UInt8 := ofNat 8 w.toNat

def toWord (data : List UInt8) : UInt64 := UInt64.ofNat (toNat data)

@[simp] theorem length_extend (size : Nat) (data : List UInt8) :
    (extend size data).length = size := by
  simp [extend]

theorem extend_of_length {size : Nat} {data : List UInt8} (h : data.length = size) :
    extend size data = data := by
  subst h
  simp [extend]

theorem take_extend {size k : Nat} (h : k ≤ size) (data : List UInt8) :
    (extend size data).take k = extend k data := by
  rw [extend, extend, List.take_take, Nat.min_eq_left h, List.take_append, List.take_append,
    List.take_replicate, List.take_replicate]
  congr 2
  omega

theorem extend_nil (size : Nat) : extend size [] = List.replicate size 0 := by
  simp [extend]

theorem extend_of_le {size : Nat} {data : List UInt8} (h : data.length ≤ size) :
    extend size data = data ++ List.replicate (size - data.length) 0 := by
  rw [extend, List.take_append, List.take_of_length_le h, List.take_replicate,
    Nat.min_eq_left (Nat.sub_le ..)]

theorem takeWhile_append_zeros {data : List UInt8} (h : 0 ∉ data) (zeros : Nat) :
    (data ++ List.replicate zeros 0).takeWhile (· ≠ 0) = data := by
  have hall : ∀ b ∈ data, decide (b ≠ 0) = true := fun b hb => decide_eq_true fun h0 => h (h0 ▸ hb)
  rw [List.takeWhile_append_of_pos hall]
  cases zeros <;> simp [List.replicate_succ]

theorem toNat_ofNat (count n : Nat) : toNat (ofNat count n) = n % 256 ^ count := by
  induction count generalizing n with
  | zero => simp [ofNat, toNat, Nat.mod_one]
  | succ count ih =>
    have h : n % 256 ^ (count + 1) = n % 256 + 256 * (n / 256 % 256 ^ count) := by
      rw [Nat.pow_succ', Nat.mod_mul]
    simp [ofNat, toNat, ih, h]

@[simp] theorem length_ofWord (w : UInt64) : (ofWord w).length = 8 := length_ofNat 8 _

@[simp] theorem toWord_ofWord (w : UInt64) : toWord (ofWord w) = w := by
  have hlt : w.toNat < 256 ^ 8 := w.toNat_lt
  rw [toWord, ofWord, toNat_ofNat, Nat.mod_eq_of_lt hlt, UInt64.ofNat_toNat]

theorem ofNat_toNat (data : List UInt8) : ofNat data.length (toNat data) = data := by
  induction data with
  | nil => rfl
  | cons b bs ih =>
    have hb := b.toNat_lt
    have h1 : (b.toNat + 256 * toNat bs) / 256 = toNat bs := by omega
    have h2 : UInt8.ofNat (b.toNat + 256 * toNat bs) = b := by
      apply UInt8.toNat_inj.1
      rw [UInt8.toNat_ofNat']
      omega
    rw [List.length_cons, ofNat, toNat, h1, h2, ih]

theorem toNat_lt (data : List UInt8) : toNat data < 256 ^ data.length := by
  induction data with
  | nil => decide
  | cons b bs ih =>
    have hb := b.toNat_lt
    rw [toNat, List.length_cons, Nat.pow_succ]
    omega

theorem ofWord_toWord {data : List UInt8} (h : data.length = 8) : ofWord (toWord data) = data := by
  have hlt : toNat data < 2 ^ 64 := by
    have := toNat_lt data
    rw [h] at this
    omega
  rw [ofWord, toWord, UInt64.toNat_ofNat_of_lt' hlt, ← h, ofNat_toNat]

end Bytes

/-- A part of a frame. -/
structure Region where
  addr : Int
  size : Nat
deriving DecidableEq, Inhabited

namespace Region

def Contains (r : Region) (x : Int) : Prop := r.addr ≤ x ∧ x < r.addr + r.size

def Disjoint (r q : Region) : Prop := r.addr + r.size ≤ q.addr ∨ q.addr + q.size ≤ r.addr

/-- A part of a region that begins at a whole word. -/
def Inside (r q : Region) : Prop := ∃ k : Nat, r.addr = q.addr + 8 * k ∧ 8 * k + r.size ≤ q.size

theorem Disjoint.symm {r q : Region} (h : r.Disjoint q) : q.Disjoint r := Or.symm h

instance : Std.Symm Disjoint := ⟨fun _ _ h => h.symm⟩

theorem Disjoint.not_contains {r q : Region} (h : r.Disjoint q) {x : Int} (hx : r.Contains x) :
    ¬q.Contains x := by
  rintro ⟨h1, h2⟩
  obtain ⟨h3, h4⟩ := hx
  rcases h with h | h <;> omega

theorem Inside.refl (r : Region) : r.Inside r := ⟨0, by simp, by simp⟩

theorem Inside.head {addr : Int} {a b : Nat} {q : Region}
    (h : (Region.mk addr (a + b)).Inside q) : (Region.mk addr a).Inside q := by
  obtain ⟨k, h1, h2⟩ := h
  dsimp only at h1 h2
  exact ⟨k, h1, by dsimp only; omega⟩

theorem Inside.tail {addr : Int} {a b : Nat} {q : Region}
    (h : (Region.mk addr (a + b)).Inside q) (ha : a % 8 = 0) :
    (Region.mk (addr + a) b).Inside q := by
  obtain ⟨k, h1, h2⟩ := h
  dsimp only at h1 h2
  exact ⟨k + a / 8, by dsimp only; omega, by dsimp only; omega⟩

theorem Inside.contains {r q : Region} (h : r.Inside q) {x : Int} (hx : r.Contains x) :
    q.Contains x := by
  obtain ⟨k, h1, h2⟩ := h
  obtain ⟨h3, h4⟩ := hx
  constructor <;> omega

theorem Inside.disjoint {r q p : Region} (h : r.Inside q) (hd : q.Disjoint p) : r.Disjoint p := by
  obtain ⟨k, h1, h2⟩ := h
  rcases hd with hd | hd
  · left
    omega
  · right
    omega

end Region

/-- The bytes of a frame by their place relative to the frame pointer. -/
abbrev Memory := Int → UInt8

namespace Memory

def read (m : Memory) (addr : Int) (size : Nat) : List UInt8 :=
  (List.range size).map fun (i : Nat) => m (addr + i)

def write (m : Memory) (addr : Int) (data : List UInt8) : Memory := fun x =>
  if addr ≤ x ∧ x < addr + data.length then data.getD (x - addr).toNat 0 else m x

@[simp] theorem length_read (m : Memory) (addr : Int) (size : Nat) :
    (m.read addr size).length = size := by
  simp [read]

theorem read_congr {m m' : Memory} {addr : Int} {size : Nat}
    (h : ∀ x, addr ≤ x → x < addr + size → m x = m' x) : m.read addr size = m'.read addr size := by
  unfold read
  apply List.map_congr_left
  intro i hi
  have := List.mem_range.1 hi
  exact h _ (by omega) (by omega)

theorem read_add (m : Memory) (addr : Int) (a b : Nat) :
    m.read addr (a + b) = m.read addr a ++ m.read (addr + a) b := by
  unfold read
  rw [List.range_add, List.map_append, List.map_map]
  congr 1
  apply List.map_congr_left
  intro i _
  simp [Int.add_assoc]

theorem take_read (m : Memory) (addr : Int) {size k : Nat} (h : k ≤ size) :
    (m.read addr size).take k = m.read addr k := by
  obtain ⟨d, rfl⟩ := Nat.exists_eq_add_of_le h
  rw [read_add, List.take_left' (m.length_read addr k)]

theorem read_write (m : Memory) (addr : Int) {data : List UInt8} {size : Nat}
    (h : data.length = size) : (m.write addr data).read addr size = data := by
  subst h
  apply List.ext_getElem
  · simp
  · intro i h1 h2
    have hin : addr ≤ addr + (i : Int) ∧ addr + (i : Int) < addr + data.length := by omega
    have hsub : (addr + (i : Int) - addr).toNat = i := by omega
    simp only [read, List.getElem_map, List.getElem_range, write, if_pos hin, hsub]
    simp [h2]

theorem write_nil (m : Memory) (addr : Int) : m.write addr [] = m := by
  funext x
  have : ¬(addr ≤ x ∧ x < addr) := by omega
  simp [write, this]

theorem write_append (m : Memory) (addr : Int) (v d : List UInt8) :
    (m.write addr v).write (addr + v.length) d = m.write addr (v ++ d) := by
  funext x
  simp only [write, List.length_append, Int.natCast_add]
  by_cases h1 : addr ≤ x ∧ x < addr + v.length
  · rw [if_neg (by omega), if_pos h1, if_pos (by omega), List.getD_append _ _ _ _ (by omega)]
  · by_cases h2 : addr + v.length ≤ x ∧ x < addr + v.length + d.length
    · rw [if_pos h2, if_pos (by omega), List.getD_append_right _ _ _ _ (by omega)]
      congr 1
      omega
    · rw [if_neg h2, if_neg h1, if_neg (by omega)]

theorem write_read (m : Memory) (addr : Int) (size : Nat) :
    m.write addr (m.read addr size) = m := by
  funext x
  have hlength : (m.read addr size).length = size := by simp [read]
  by_cases h : addr ≤ x ∧ x < addr + size
  · have hx : (x - addr).toNat < size := by omega
    have hsum : addr + ((x - addr).toNat : Int) = x := by omega
    rw [write, hlength, if_pos h, read, List.getD_eq_getElem _ _ (by simpa using hx),
      List.getElem_map, List.getElem_range, hsum]
  · rw [write, hlength, if_neg h]

/-- Two memories are the same except inside some regions. -/
def ChangedIn (rs : List Region) (m m' : Memory) : Prop :=
  ∀ x, (∀ r ∈ rs, ¬r.Contains x) → m' x = m x

theorem ChangedIn.refl (rs : List Region) (m : Memory) : ChangedIn rs m m := fun _ _ => rfl

theorem ChangedIn.mono {rs qs : List Region} {m m' : Memory} (h : ChangedIn rs m m')
    (hsub : rs ⊆ qs) : ChangedIn qs m m' :=
  fun x hx => h x fun r hr => hx r (hsub hr)

theorem ChangedIn.trans {rs : List Region} {m m' m'' : Memory} (h : ChangedIn rs m m')
    (h' : ChangedIn rs m' m'') : ChangedIn rs m m'' :=
  fun x hx => (h' x hx).trans (h x hx)

theorem changedIn_write (m : Memory) (addr : Int) (data : List UInt8) :
    ChangedIn [⟨addr, data.length⟩] m (m.write addr data) := by
  intro x hx
  have : ¬(addr ≤ x ∧ x < addr + data.length) := hx _ List.mem_cons_self
  rw [write, if_neg this]

theorem ChangedIn.widen {rs qs : List Region} {m m' : Memory} (h : ChangedIn rs m m')
    (hin : ∀ r ∈ rs, ∃ q ∈ qs, r.Inside q) : ChangedIn qs m m' := by
  intro x hx
  apply h
  intro r hr hc
  obtain ⟨q, hq, hrq⟩ := hin r hr
  exact hx q hq (hrq.contains hc)

theorem ChangedIn.read {rs : List Region} {m m' : Memory} (h : ChangedIn rs m m') {addr : Int}
    {size : Nat} (hd : ∀ r ∈ rs, (Region.mk addr size).Disjoint r) :
    m'.read addr size = m.read addr size :=
  read_congr fun x h1 h2 => h x fun r hr => (hd r hr).not_contains ⟨h1, h2⟩

theorem read_write_head (m : Memory) (addr : Int) {data : List UInt8} {size : Nat}
    (h : data.length ≤ size) :
    (m.write addr data).read addr size = data ++ (m.read addr size).drop data.length := by
  obtain ⟨k, rfl⟩ := Nat.exists_eq_add_of_le h
  rw [read_add, read_add, read_write m addr rfl, List.drop_left' (m.length_read ..),
    (m.changedIn_write addr data).read]
  intro r hr
  obtain rfl := List.mem_singleton.1 hr
  exact .inr (Int.le_refl _)

end Memory

end TraceScript
