import Phi.Top.Reply

/-!
# Phi.Top.Decoded

`snapshot_decode` reads a StatReply as `phi-rpc` does.

Each part of the walk follows the reader of its fields (`Follows`), leaves in
its own areas what `phi-rpc` decodes there, cut to the table and the name's
field, and touches no other area (`Only`).
-/

namespace Phi.Top

open Rpc Walk

/-! ## loads and stores -/

namespace Snap

theorem store_cells_of_ne (s : Snap) {a b : Area} (h : b ≠ a) (o : Nat) (bs : List UInt8) :
    (s.store a o bs).cells b = s.cells b := Function.update_of_ne h ..

theorem store_cells_self (s : Snap) (a : Area) (o : Nat) (bs : List UInt8) :
    (s.store a o bs).cells a = Circular.write (s.cells a) o bs := Function.update_self ..

theorem load_store (s : Snap) (a : Area) (o : Nat) (bs : List UInt8) :
    (s.store a o bs).load a o bs.length = bs := by
  rw [load, store_cells_self]
  exact Circular.read_write _ _ _

/-- What was stored is loaded. -/
theorem load_store_eq {s : Snap} {a : Area} {o n : Nat} {bs : List UInt8} (h : bs.length = n) :
    (s.store a o bs).load a o n = bs := h ▸ s.load_store a o bs

theorem load_store_apart (s : Snap) (a : Area) {o o' n : Nat} {bs : List UInt8}
    (h : o' + n ≤ o ∨ o + bs.length ≤ o') : (s.store a o bs).load a o' n = s.load a o' n := by
  rw [load, store_cells_self]
  exact Circular.read_congr fun k hk => Circular.write_of_not_mem _ (by omega)

theorem load_congr {s t : Snap} {a : Area} (h : t.cells a = s.cells a) (o n : Nat) :
    t.load a o n = s.load a o n := by
  rw [load, load, h]

theorem u16_congr {s t : Snap} {a : Area} (h : t.cells a = s.cells a) (o : Nat) :
    t.u16 a o = s.u16 a o := by rw [u16, u16, load_congr h]

theorem u32_congr {s t : Snap} {a : Area} (h : t.cells a = s.cells a) (o : Nat) :
    t.u32 a o = s.u32 a o := by rw [u32, u32, load_congr h]

theorem u64_congr {s t : Snap} {a : Area} (h : t.cells a = s.cells a) (o : Nat) :
    t.u64 a o = s.u64 a o := by rw [u64, u64, load_congr h]

end Snap

/-- Stores in these areas, each within its area, and no others. -/
structure Only (A : Area → Prop) (s t : Snap) : Prop where
  same : ∀ a, ¬ A a → t.cells a = s.cells a
  wrote : ∃ more, t.wrote = s.wrote ++ more ∧
    ∀ w ∈ more, A w.1 ∧ w.1.Valid ∧ w.2.1 + w.2.2 ≤ w.1.size

theorem only_refl (A : Area → Prop) (s : Snap) : Only A s s :=
  ⟨fun _ _ => rfl, [], by simp, by simp⟩

theorem Only.trans {A : Area → Prop} {s t u : Snap} (h : Only A s t) (h' : Only A t u) :
    Only A s u := by
  obtain ⟨more, hmore, hin⟩ := h.wrote
  obtain ⟨more', hmore', hin'⟩ := h'.wrote
  refine ⟨fun a ha => (h'.same a ha).trans (h.same a ha), more ++ more', ?_, ?_⟩
  · rw [hmore', hmore, List.append_assoc]
  · intro w hw
    rcases List.mem_append.mp hw with hw | hw
    · exact hin w hw
    · exact hin' w hw

theorem Only.mono {A B : Area → Prop} {s t : Snap} (h : Only A s t) (hAB : ∀ a, A a → B a) :
    Only B s t := by
  obtain ⟨more, hmore, hin⟩ := h.wrote
  exact ⟨fun a ha => h.same a fun hA => ha (hAB a hA), more, hmore, fun w hw =>
    ⟨hAB w.1 (hin w hw).1, (hin w hw).2⟩⟩

/-- One more store. -/
theorem Only.storeIn {A : Area → Prop} {s t : Snap} (h : Only A s t) (a : Area) (ha : A a)
    (hvalid : a.Valid) (o : Nat) {bs : List UInt8} (hfits : o + bs.length ≤ a.size) :
    Only A s (t.store a o bs) :=
  h.trans
    { same := fun b hb => t.store_cells_of_ne (fun heq => hb (by rwa [heq])) o bs
      wrote := ⟨[(a, o, bs.length)], rfl, by simpa using ⟨ha, hvalid, hfits⟩⟩ }

/-- One more store into the one area. -/
theorem Only.store {s t : Snap} {a : Area} (h : Only (· = a) s t) (hvalid : a.Valid) (o : Nat)
    {bs : List UInt8} (hfits : o + bs.length ≤ a.size) : Only (· = a) s (t.store a o bs) :=
  h.storeIn a rfl hvalid o hfits

/-! ## words -/

/-- A field copied. -/
theorem follows_copy {β : Type} {d n : Nat} {a : Area} {o : Nat} {s : Snap}
    (f : List UInt8 → β) :
    Follows d (d + n) s (copy d n a o) (do let b ← Reader.take n; pure (f b))
      fun v _ t => ∃ b : List UInt8, b.length = n ∧ v = f b ∧ t = s.store a o b := by
  refine (follows_word f).after fun v b t ⟨hlen, hv, ht⟩ => ?_
  exact (follows_build _ v).mono fun x _ u ⟨hx, hu⟩ => ⟨b, hlen, hx.trans hv, by rw [hu, ht]⟩

theorem follows_put {β : Type} {d : Nat} {a : Area} {o : Nat} {bs : List UInt8} {s : Snap} (b : β) :
    Follows d d s (put a o bs) (pure b : Reader β) fun x _ t => x = b ∧ t = s.store a o bs :=
  follows_build _ b

/-- An entry: kept where there is room, passed over elsewhere. -/
theorem follows_kept {β : Type} {d d' i cap : Nat} {s : Snap} {w : Walk Snap Unit} {r : Reader β}
    {P : β → Snap → Prop} (hkeep : i < cap → Follows d d' s w r fun b _ t => P b t)
    (hpass : Follows d d' s (pure () : Walk Snap Unit) r fun _ _ t => t = s) :
    Follows d d' s (kept i cap w) r fun b _ t => (i < cap → P b t) ∧ (¬ i < cap → t = s) := by
  unfold kept
  by_cases hi : i < cap
  · rw [if_pos hi]
    exact (hkeep hi).mono fun b _ t hP => ⟨fun _ => hP, fun h => absurd hi h⟩
  · rw [if_neg hi]
    exact hpass.mono fun b _ t ht => ⟨fun h => absurd h hi, fun _ => ht⟩

/-! ## entries of fixed size -/

/-- A processor's entry. -/
structure CpuAt (s : Snap) (i : Nat) (c : CpuStat) : Prop where
  core : s.u16 (.cpu i) 0 = c.core
  busy : s.u32 (.cpu i) 4 = c.busy
  idle : s.u32 (.cpu i) 8 = c.idle

theorem follows_decodeCpu (i : Nat) (s : Snap) :
    Follows 0 0 s (decodeCpu i) Read.cpu fun c _ t =>
      (i < snCpuCap → CpuAt t i c ∧ Only (· = .cpu i) s t) ∧ (¬ i < snCpuCap → t = s) := by
  have hkeep : i < snCpuCap → Follows 0 10 s
      (do copy 0 2 (.cpu i) 0; copy 2 4 (.cpu i) 4; copy 6 4 (.cpu i) 8) Read.cpu
      fun c _ t => CpuAt t i c ∧ Only (· = .cpu i) s t := fun hi => by
    refine (follows_copy _).bind fun core _ t ⟨b, hb, hcore, ht⟩ => ?_
    refine (follows_copy _).bind fun busy _ u ⟨b', hb', hbusy, hu⟩ => ?_
    refine (follows_copy _).map fun idle _ v ⟨b'', hb'', hidle, hv⟩ => ?_
    subst hv hu ht
    refine ⟨⟨?_, ?_, ?_⟩, ?_⟩
    · rw [Snap.u16, Snap.load_store_apart _ _ (by omega), Snap.load_store_apart _ _ (by omega),
        Snap.load_store_eq hb, hcore]
    · rw [Snap.u32, Snap.load_store_apart _ _ (by omega), Snap.load_store_eq hb', hbusy]
    · rw [Snap.u32, Snap.load_store_eq hb'', hidle]
    · have hvalid : (Area.cpu i).Valid := hi
      have hsize : (Area.cpu i).size = 12 := rfl
      exact (((only_refl _ s).store hvalid 0 (by omega)).store hvalid 4 (by omega)).store hvalid 8
        (by omega)
  exact (follows_kept hkeep (follows_unread forget_cpu)).moved

/-! ## tables -/

/-- The `table i` are areas of their own, and what an entry says is read from its
area alone. -/
structure Table {β : Type} (table : Nat → Area) (count : Area) (At : Snap → Nat → β → Prop) :
    Prop where
  inj : ∀ {i j}, table i = table j → i = j
  apart : ∀ i, table i ≠ count
  valid : count.Valid
  size : count.size = 8
  congr : ∀ {s t i b}, At s i b → t.cells (table i) = s.cells (table i) → At t i b

/-- A list decoded into its table: its entries, so many as there is room for, and
their number. -/
structure Listed {β : Type} (table : Nat → Area) (count : Area) (cap : Nat)
    (At : Snap → Nat → β → Prop) (bs : List β) (t : Snap) : Prop where
  entries : ∀ i b, bs[i]? = some b → i < cap → At t i b
  count : t.u64 count 0 = UInt64.ofNat (min bs.length cap)

section table

variable {β : Type} {table : Nat → Area} {count : Area} {cap : Nat} {At : Snap → Nat → β → Prop}
  {entry : Nat → Walk Snap Unit} {r : Reader β}

theorem follows_entries (htable : Table table count At)
    (hentry : ∀ i s, Follows 0 0 s (entry i) r fun b _ t =>
      (i < cap → At t i b ∧ Only (· = table i) s t) ∧ (¬ i < cap → t = s)) (n : Nat) (s : Snap) :
    Follows 0 0 s (loop entry 0 n) (Reader.many r n) fun bs _ t =>
      bs.length = n ∧ (∀ i b, bs[i]? = some b → i < cap → At t i b) ∧
        Only (fun a => ∃ i, a = table i) s t := by
  have hstep : ∀ (bs : List β) (t : Snap),
      ((∀ i b, bs[i]? = some b → i < cap → At t i b) ∧ Only (fun a => ∃ i, a = table i) s t) →
      Follows 0 0 t (entry bs.length) r fun b _ u =>
        (∀ i c, (bs ++ [b])[i]? = some c → i < cap → At u i c) ∧
          Only (fun a => ∃ i, a = table i) s u := by
    rintro bs t ⟨hat, honly⟩
    refine (hentry bs.length t).mono fun b _ u h => ?_
    obtain ⟨hkept, hpassed⟩ := h
    by_cases hroom : bs.length < cap
    · obtain ⟨hb, hone⟩ := hkept hroom
      refine ⟨fun i c hc hi => ?_, honly.trans (hone.mono fun a ha => ⟨bs.length, ha⟩)⟩
      rcases Nat.lt_trichotomy i bs.length with hlt | rfl | hgt
      · rw [List.getElem?_append_left hlt] at hc
        exact htable.congr (hat i c hc hi)
          (hone.same _ fun heq => Nat.ne_of_lt hlt (htable.inj heq))
      · rw [List.getElem?_concat_length] at hc
        exact Option.some.inj hc ▸ hb
      · rw [List.getElem?_eq_none (by simp; omega)] at hc
        cases hc
    · rw [hpassed hroom]
      refine ⟨fun i c hc hi => ?_, honly⟩
      rw [List.getElem?_append_left (by omega)] at hc
      exact hat i c hc hi
  have hstart : (∀ i b, ([] : List β)[i]? = some b → i < cap → At s i b) ∧
      Only (fun a => ∃ i, a = table i) s s := ⟨fun i b hb => by simp at hb, only_refl _ s⟩
  exact (follows_loop _ hstep n [] hstart).mono fun bs _ t h => by simpa using h

theorem u64_put (s : Snap) (a : Area) {n : Nat} (h : n < 2 ^ 64) :
    (s.store a 0 (leBytes 8 n)).u64 a 0 = UInt64.ofNat n := by
  have hload := s.load_store a 0 (leBytes 8 n)
  rw [length_leBytes] at hload
  rw [Snap.u64, hload, ofLe_leBytes h]

/-- The entries and then their count. -/
theorem follows_listed (htable : Table table count At)
    (hentry : ∀ i s, Follows 0 0 s (entry i) r fun b _ t =>
      (i < cap → At t i b ∧ Only (· = table i) s t) ∧ (¬ i < cap → t = s)) {n : Nat}
    (hn : n < 2 ^ 64) (s : Snap) :
    Follows 0 0 s (fill entry n count cap) (Reader.many r n) fun bs _ t =>
      bs.length = n ∧ Listed table count cap At bs t ∧
        Only (fun a => (∃ i, a = table i) ∨ a = count) s t := by
  refine (follows_entries htable hentry n s).after fun bs _ t ⟨hlen, hat, honly⟩ => ?_
  refine (follows_put bs).mono fun x _ u ⟨hx, hu⟩ => ?_
  subst hx hu
  have hclip : clipped n cap = min n cap := by
    unfold clipped
    split <;> omega
  have hput : Only (· = count) t (t.store count 0 (leBytes 8 (clipped n cap))) :=
    (only_refl _ t).store htable.valid 0 (by simp [htable.size])
  refine ⟨hlen, ⟨fun i b hb hi => ?_, ?_⟩, ?_⟩
  · exact htable.congr (hat i b hb hi) (hput.same _ (htable.apart i))
  · rw [u64_put _ _ (by omega), hclip, hlen]
  · exact (honly.mono fun a ha => .inl ha).trans (hput.mono fun a ha => .inr ha)

end table

/-! ## the entries of each table -/

theorem CpuAt.congr {s t : Snap} {i : Nat} {c : CpuStat} (h : CpuAt s i c)
    (hcells : t.cells (.cpu i) = s.cells (.cpu i)) : CpuAt t i c where
  core := (Snap.u16_congr hcells 0).trans h.core
  busy := (Snap.u32_congr hcells 4).trans h.busy
  idle := (Snap.u32_congr hcells 8).trans h.idle

theorem cpu_table : Table .cpu .ncpu CpuAt where
  inj h := Area.cpu.inj h
  apart _ := nofun
  valid := trivial
  size := rfl
  congr := CpuAt.congr

/-- A temperature. -/
def TempAt (s : Snap) (i : Nat) (v : Int16) : Prop := (s.u16 (.temp i) 0).toInt16 = v

theorem temp_table : Table .temp .ntemps TempAt where
  inj h := Area.temp.inj h
  apart _ := nofun
  valid := trivial
  size := rfl
  congr h hcells := by
    unfold TempAt
    rw [Snap.u16_congr hcells]
    exact h

/-- A signed word is read as an unsigned one. -/
theorem i16_eq : Read.i16 = (do let b ← Reader.take 2; pure (UInt16.ofNat (ofLe b)).toInt16) := by
  unfold Read.i16 Read.u16
  rw [bind_assoc]
  rfl

theorem follows_decodeTemp (i : Nat) (s : Snap) :
    Follows 0 0 s (decodeTemp i) Read.i16 fun v _ t =>
      (i < snTempCap → TempAt t i v ∧ Only (· = .temp i) s t) ∧ (¬ i < snTempCap → t = s) := by
  have hkeep : i < snTempCap → Follows 0 2 s (copy 0 2 (.temp i) 0) Read.i16
      fun v _ t => TempAt t i v ∧ Only (· = .temp i) s t := fun hi => by
    rw [i16_eq]
    refine (follows_copy _).mono fun v _ t ⟨b, hb, hv, ht⟩ => ?_
    subst ht
    have hvalid : (Area.temp i).Valid := hi
    have hsize : (Area.temp i).size = 2 := rfl
    refine ⟨?_, (only_refl _ s).store hvalid 0 (by omega)⟩
    unfold TempAt Snap.u16
    rw [Snap.load_store_eq hb, hv]
  exact (follows_kept hkeep (follows_unread forget_i16)).moved

/-- A device's entry: its name cut to the field, with a NUL behind it. -/
structure DevAt (table : Nat → Area) (s : Snap) (i : Nat) (d : DevStat) : Prop where
  nameLen : (s.u32 (table i) 0).toNat = min (Utf8.bytes d.name).length (devNameCap - 1)
  name : s.load (table i) 4 (s.u32 (table i) 0).toNat = (Utf8.bytes d.name).take (devNameCap - 1)
  nul : s.load (table i) (4 + (s.u32 (table i) 0).toNat) 1 = [0]
  read : s.u64 (table i) 64 = d.read
  written : s.u64 (table i) 72 = d.written

/-- The first `k` of the bytes that the reader takes, copied. -/
theorem follows_copyPart {d k n : Nat} {a : Area} {o : Nat} {s : Snap} (hk : k ≤ n) :
    Follows d (d + n) s (copy d k a o) (Reader.take n) fun b _ t =>
      b.length = n ∧ t = s.store a o (b.take k) := by
  refine (follows_peek hk).after fun b x t ⟨hlen, hx, ht⟩ => ?_
  exact (follows_build _ b).mono fun y _ u ⟨hy, hu⟩ => ⟨hy ▸ hlen, by rw [hu, hx, ht, hy]⟩

/-- A name clipped and copied. -/
theorem follows_copyName {β : Type} (d n cap : Nat) (a : Area) (lenAt nameAt : Nat) (s : Snap)
    (f : List UInt8 → Option β) :
    Follows d (d + n) s (copyName d n cap a lenAt nameAt)
      (do let b ← Reader.take n; Reader.check (f b)) fun v _ t => ∃ b : List UInt8,
        b.length = n ∧ f b = some v ∧
          t = ((s.store a lenAt (leBytes 4 (min n (cap - 1)))).store a nameAt
            (b.take (cap - 1))).store a (nameAt + min n (cap - 1)) [0] := by
  have hclip : (if n ≤ cap - 1 then n else cap - 1) = min n (cap - 1) := by
    split <;> omega
  unfold copyName
  rw [hclip]
  refine Follows.before (follows_put ()) fun _ t ht => ?_
  refine (follows_copyPart (Nat.min_le_left n (cap - 1))).bind fun b _ u ⟨hlen, hu⟩ => ?_
  rw [← bind_pure (Reader.check (f b))]
  refine Follows.unseen (follows_check (f b)) fun v u' ⟨hv, hu'⟩ => ?_
  refine (follows_put v).mono fun x _ w ⟨hx, hw⟩ => ⟨b, hlen, hx ▸ hv, ?_⟩
  have hpart : b.take (min n (cap - 1)) = b.take (cap - 1) := by
    rw [← hlen, ← List.take_take, List.take_of_length_le (List.length_take_le' ..)]
  rw [hw, hu', hu, ht.2, hpart]

/-- What a clipped name leaves in its area. -/
theorem name_stored {s t : Snap} {a : Area} {lenAt nameAt cap : Nat} {b : List UInt8}
    (ht : t = ((s.store a lenAt (leBytes 4 (min b.length (cap - 1)))).store a nameAt
      (b.take (cap - 1))).store a (nameAt + min b.length (cap - 1)) [0])
    (hcap : 0 < cap ∧ cap < 2 ^ 32) (hlen : lenAt + 4 ≤ nameAt) (hvalid : a.Valid)
    (hsize : nameAt + cap ≤ a.size) :
    (t.u32 a lenAt).toNat = min b.length (cap - 1) ∧
      t.load a nameAt (min b.length (cap - 1)) = b.take (cap - 1) ∧
      t.load a (nameAt + min b.length (cap - 1)) 1 = [0] ∧ Only (· = a) s t := by
  have htake : (b.take (cap - 1)).length = min b.length (cap - 1) := by
    rw [List.length_take, Nat.min_comm]
  have hlast : ([0] : List UInt8).length = 1 := rfl
  rw [ht]
  refine ⟨?_, ?_, Snap.load_store _ _ _ [0], ?_⟩
  · have hload := s.load_store a lenAt (leBytes 4 (min b.length (cap - 1)))
    rw [length_leBytes] at hload
    rw [Snap.u32, Snap.load_store_apart _ _ (by omega), Snap.load_store_apart _ _ (by omega), hload,
      ofLe_leBytes (by omega)]
    exact UInt32.toNat_ofNat_of_lt' (by show _ < 2 ^ 32; omega)
  · rw [Snap.load_store_apart _ _ (by omega), ← htake, Snap.load_store]
  · have hfirst : Only (· = a) s (s.store a lenAt (leBytes 4 (min b.length (cap - 1)))) :=
      (only_refl _ s).store hvalid lenAt (by rw [length_leBytes]; omega)
    exact (hfirst.store hvalid nameAt (by omega)).store hvalid _ (by omega)

theorem dev_eq : Read.dev = (do
    let n ← Read.u16
    let name ← (do let b ← Reader.take n.toNat; Reader.check (Utf8.decode b))
    let read ← Read.u64
    let written ← Read.u64
    pure { name, read, written }) := by
  unfold Read.dev Read.str
  simp only [bind_assoc]

/-- A name that the walk passes over. -/
theorem follows_passName {d n : Nat} {s : Snap} :
    Follows d (d + n) s (pure () : Walk Snap Unit)
      (do let b ← Reader.take n; Reader.check (Utf8.decode b)) fun _ _ t => t = s :=
  Follows.unseen follows_skip fun b _ ht =>
    (follows_check (Utf8.decode b)).mono fun _ _ _ hu => hu.2.trans ht.2

theorem follows_decodeDevEntry {table : Nat → Area} (hvalid : ∀ i < snDevCap, (table i).Valid)
    (hsize : ∀ i, (table i).size = 80) (i : Nat) (s : Snap) :
    Follows 0 0 s (decodeDevEntry table i) Read.dev fun d _ t =>
      (i < snDevCap → DevAt table t i d ∧ Only (· = table i) s t) ∧ (¬ i < snDevCap → t = s) := by
  rw [dev_eq]
  refine follows_peekU16.bind fun v n t ⟨hn, ht⟩ => Follows.move_before ?_
  rw [hn, ht]
  generalize v.toNat = n
  have hkeep : i < snDevCap → Follows 0 (16 + n) s
      (do copyName 0 n devNameCap (table i) 0 4; copy n 8 (table i) 64; copy (n + 8) 8 (table i) 72)
      (do
        let name ← (do let b ← Reader.take n; Reader.check (Utf8.decode b))
        let read ← Read.u64
        let written ← Read.u64
        pure { name, read, written })
      fun d _ t => DevAt table t i d ∧ Only (· = table i) s t := fun hi => by
    have hcopyName := follows_copyName 0 n devNameCap (table i) 0 4 s Utf8.decode
    rw [Nat.zero_add] at hcopyName
    rw [show 16 + n = n + 8 + 8 by omega]
    refine hcopyName.bind fun name _ t ⟨b, hlen, hname, ht⟩ => ?_
    refine (follows_copy _).bind fun read _ u ⟨c, hc, hread, hu⟩ => ?_
    refine (follows_copy _).map fun written _ w ⟨e, he, hwritten, hw⟩ => ?_
    have hbytes := Utf8.bytes_of_decode hname
    have hin := hvalid i hi
    have hroom := hsize i
    subst hlen
    obtain ⟨hlenAt, hnameAt, hnul, honly⟩ :=
      name_stored ht (by decide) (by decide) hin
        (Nat.le_trans (by decide) (Nat.le_of_eq hroom.symm))
    have hshort : min b.length (devNameCap - 1) ≤ 59 := Nat.min_le_right _ _
    have hnameLen : (w.u32 (table i) 0).toNat = min b.length (devNameCap - 1) := by
      rw [hw, hu, Snap.u32, Snap.load_store_apart _ _ (by omega),
        Snap.load_store_apart _ _ (by omega)]
      exact hlenAt
    subst hw hu
    refine ⟨⟨?_, ?_, ?_, ?_, ?_⟩, ?_⟩
    · rw [hnameLen, hbytes]
    · rw [hnameLen, Snap.load_store_apart _ _ (by omega), Snap.load_store_apart _ _ (by omega),
        hnameAt, hbytes]
    · rw [hnameLen, Snap.load_store_apart _ _ (by omega), Snap.load_store_apart _ _ (by omega),
        hnul]
    · rw [Snap.u64, Snap.load_store_apart _ _ (by omega), Snap.load_store_eq hc, hread]
    · rw [Snap.u64, Snap.load_store_eq he, hwritten]
    · exact (honly.store hin 64 (by omega)).store hin 72 (by omega)
  have hpass : Follows 0 (16 + n) s (pure () : Walk Snap Unit)
      (do
        let name ← (do let b ← Reader.take n; Reader.check (Utf8.decode b))
        let read ← Read.u64
        let written ← Read.u64
        pure ({ name, read, written } : DevStat)) fun _ _ t => t = s := by
    rw [show 16 + n = 0 + n + 8 + 8 by omega]
    refine Follows.unseen follows_passName fun name t ht => ?_
    refine Follows.unseen (follows_unread forget_u64) fun read u hu => ?_
    refine (follows_unread forget_u64).map fun written _ w hw => ?_
    rw [hw, hu, ht]
  exact (follows_kept hkeep hpass).moved

/-- A process's entry. -/
structure ProcAt (s : Snap) (i : Nat) (p : ProcStat) : Prop where
  pid : s.u32 (.proc i) 0 = p.pid
  state : s.u8 (.proc i) 4 = p.state
  kthread : (s.u8 (.proc i) 5 ≠ 0) = p.kthread
  threads : s.u32 (.proc i) 8 = p.threads
  commLen : (s.u32 (.proc i) 12).toNat = min (Utf8.bytes p.comm).length (prCommCap - 1)
  ticks : s.u64 (.proc i) 16 = p.ticks
  rss : s.u64 (.proc i) 24 = p.rssKb
  comm : s.load (.proc i) 32 (s.u32 (.proc i) 12).toNat = (Utf8.bytes p.comm).take (prCommCap - 1)
  nul : s.load (.proc i) (32 + (s.u32 (.proc i) 12).toNat) 1 = [0]

theorem proc_eq : Read.proc = (do
    let pid ← Read.u32
    let state ← Read.u8
    let kthread ← Read.u8
    let ticks ← Read.u64
    let rssKb ← Read.u64
    let threads ← Read.u32
    let n ← Read.u16
    let comm ← (do let b ← Reader.take n.toNat; Reader.check (Utf8.decode b))
    pure { pid, state, kthread := kthread ≠ 0, ticks, rssKb, threads, comm }) := by
  unfold Read.proc Read.str
  simp only [bind_assoc]

theorem follows_decodeProcEntry (i : Nat) (s : Snap) :
    Follows 0 0 s (decodeProcEntry i) Read.proc fun p _ t =>
      (i < snProcCap → ProcAt t i p ∧ Only (· = .proc i) s t) ∧ (¬ i < snProcCap → t = s) := by
  rw [proc_eq]
  unfold decodeProcEntry
  by_cases hi : i < snProcCap
  · rw [if_pos hi]
    refine (follows_copy _).bind fun pid _ t₁ ⟨b₁, h₁, hpid, ht₁⟩ => ?_
    refine (follows_copy _).bind fun state _ t₂ ⟨b₂, h₂, hstate, ht₂⟩ => ?_
    refine (follows_copy _).bind fun kthread _ t₃ ⟨b₃, h₃, hkthread, ht₃⟩ => ?_
    refine (follows_copy _).bind fun ticks _ t₄ ⟨b₄, h₄, hticks, ht₄⟩ => ?_
    refine (follows_copy _).bind fun rss _ t₅ ⟨b₅, h₅, hrss, ht₅⟩ => ?_
    refine (follows_copy _).bind fun threads _ t₆ ⟨b₆, h₆, hthreads, ht₆⟩ => ?_
    refine follows_peekU16.bind fun v n t ⟨hn, ht⟩ => ?_
    rw [hn, ht]
    generalize v.toNat = n
    refine Follows.moved (n := 28 + n) ?_
    refine (follows_copyName 28 n prCommCap (.proc i) 12 32 t₆ Utf8.decode).map
      fun comm _ u ⟨b, hlen, hcomm, hu⟩ => ?_
    have hbytes := Utf8.bytes_of_decode hcomm
    subst hlen
    have hin : (Area.proc i).Valid := hi
    have hroom : (Area.proc i).size = 96 := rfl
    have hshort : min b.length (prCommCap - 1) ≤ 63 := Nat.min_le_right _ _
    obtain ⟨hlenAt, hnameAt, hnul, honly⟩ :=
      name_stored hu (by decide) (by decide) hin (Nat.le_of_eq hroom.symm)
    have hname : (b.take (prCommCap - 1)).length = min b.length (prCommCap - 1) := by
      rw [List.length_take, Nat.min_comm]
    have hkeep : ∀ o k, o + k ≤ 12 ∨ (16 ≤ o ∧ o + k ≤ 32) →
        u.load (.proc i) o k = t₆.load (.proc i) o k := fun o k h => by
      rw [hu, Snap.load_store_apart _ _ (by omega), Snap.load_store_apart _ _ (by omega),
        Snap.load_store_apart _ _ (by simp; omega)]
    refine ⟨fun _ => ⟨⟨?_, ?_, ?_, ?_, ?_, ?_, ?_, ?_, ?_⟩, ?_⟩, fun h => absurd hi h⟩
    · rw [Snap.u32, hkeep 0 4 (by omega)]
      simp (disch := omega) only [ht₆, ht₅, ht₄, ht₃, ht₂, ht₁, Snap.load_store_apart]
      rw [Snap.load_store_eq h₁, hpid]
    · rw [Snap.u8, hkeep 4 1 (by omega)]
      simp (disch := omega) only [ht₆, ht₅, ht₄, ht₃, ht₂, Snap.load_store_apart]
      rw [Snap.load_store_eq h₂, hstate]
    · rw [Snap.u8, hkeep 5 1 (by omega)]
      simp (disch := omega) only [ht₆, ht₅, ht₄, ht₃, Snap.load_store_apart]
      rw [Snap.load_store_eq h₃, hkthread]
      simp
    · rw [Snap.u32, hkeep 8 4 (by omega), ht₆, Snap.load_store_eq h₆, hthreads]
    · rw [hlenAt, hbytes]
    · rw [Snap.u64, hkeep 16 8 (by omega)]
      simp (disch := omega) only [ht₆, ht₅, ht₄, Snap.load_store_apart]
      rw [Snap.load_store_eq h₄, hticks]
    · rw [Snap.u64, hkeep 24 8 (by omega)]
      simp (disch := omega) only [ht₆, ht₅, Snap.load_store_apart]
      rw [Snap.load_store_eq h₅, hrss]
    · rw [hlenAt, hnameAt, hbytes]
    · rw [hlenAt, hnul]
    · have hone : ∀ {r : Snap} (o : Nat) {bs : List UInt8}, Only (· = .proc i) s r →
          o + bs.length ≤ 96 → Only (· = .proc i) s (r.store (.proc i) o bs) :=
        fun o _ honly hfits => honly.store hin o hfits
      have hfields : Only (· = .proc i) s t₆ := by
        rw [ht₆, ht₅, ht₄, ht₃, ht₂, ht₁]
        exact hone 8 (hone 24 (hone 16 (hone 5 (hone 4 (hone 0 (only_refl _ s) (by omega))
          (by omega))
          (by omega)) (by omega)) (by omega)) (by omega)
      exact hfields.trans honly
  · rw [if_neg hi]
    refine Follows.unseen (follows_unread forget_u32) fun pid t₁ ht₁ => ?_
    refine Follows.unseen (follows_unread forget_u8) fun state t₂ ht₂ => ?_
    refine Follows.unseen (follows_unread forget_u8) fun kthread t₃ ht₃ => ?_
    refine Follows.unseen (follows_unread forget_u64) fun ticks t₄ ht₄ => ?_
    refine Follows.unseen (follows_unread forget_u64) fun rssKb t₅ ht₅ => ?_
    refine Follows.unseen (follows_unread forget_u32) fun threads t₆ ht₆ => ?_
    refine follows_peekU16.bind fun v n t ⟨hn, ht⟩ => ?_
    rw [hn]
    have hname : Follows 28 (28 + v.toNat) t (pure () : Walk Snap Unit)
        (do
          let comm ← (do let b ← Reader.take v.toNat; Reader.check (Utf8.decode b))
          pure ({ pid, state, kthread := kthread ≠ 0, ticks, rssKb, threads, comm } : ProcStat))
        fun _ _ u => u = s :=
      follows_passName.map fun comm _ u hu => by rw [hu, ht, ht₆, ht₅, ht₄, ht₃, ht₂, ht₁]
    exact (hname.moved).mono fun p _ u hu => ⟨fun h => absurd h hi, fun _ => hu⟩

theorem DevAt.congr {table : Nat → Area} {s t : Snap} {i : Nat} {d : DevStat}
    (h : DevAt table s i d) (hcells : t.cells (table i) = s.cells (table i)) :
    DevAt table t i d where
  nameLen := by rw [Snap.u32_congr hcells]; exact h.nameLen
  name := by rw [Snap.u32_congr hcells, Snap.load_congr hcells]; exact h.name
  nul := by rw [Snap.u32_congr hcells, Snap.load_congr hcells]; exact h.nul
  read := (Snap.u64_congr hcells 64).trans h.read
  written := (Snap.u64_congr hcells 72).trans h.written

theorem ProcAt.congr {s t : Snap} {i : Nat} {p : ProcStat} (h : ProcAt s i p)
    (hcells : t.cells (.proc i) = s.cells (.proc i)) : ProcAt t i p where
  pid := (Snap.u32_congr hcells 0).trans h.pid
  state := by rw [Snap.u8, Snap.load_congr hcells]; exact h.state
  kthread := by rw [Snap.u8, Snap.load_congr hcells]; exact h.kthread
  threads := (Snap.u32_congr hcells 8).trans h.threads
  commLen := by rw [Snap.u32_congr hcells]; exact h.commLen
  ticks := (Snap.u64_congr hcells 16).trans h.ticks
  rss := (Snap.u64_congr hcells 24).trans h.rss
  comm := by rw [Snap.u32_congr hcells, Snap.load_congr hcells]; exact h.comm
  nul := by rw [Snap.u32_congr hcells, Snap.load_congr hcells]; exact h.nul

theorem disk_table : Table .disk .ndisks (DevAt .disk) where
  inj h := Area.disk.inj h
  apart _ := nofun
  valid := trivial
  size := rfl
  congr := DevAt.congr

theorem net_table : Table .net .nnets (DevAt .net) where
  inj h := Area.net.inj h
  apart _ := nofun
  valid := trivial
  size := rfl
  congr := DevAt.congr

theorem proc_table : Table .proc .nlisted ProcAt where
  inj h := Area.proc.inj h
  apart _ := nofun
  valid := trivial
  size := rfl
  congr := ProcAt.congr

end Phi.Top
