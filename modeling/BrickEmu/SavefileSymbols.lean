import Mathlib.Data.List.TakeWhile
import BrickEmu.ByteStream
import BrickEmu.Symbols

/-!
# The symbols in a saved state

A record holds address, type, length of the name and the name; a record of
zeros ends the list.  `load_symbols` adds the symbols it reads to the table
that is there.  Memory the program has not initialized is a parameter `junk`.
-/

namespace BrickEmu

open SplayTree ByteStream

def saveSymbol (file : List Byte) (sym : Symbol) : List Byte :=
  file ++ (bytes16 sym.addr ++ bytes16 sym.type ++
    bytes16 (BitVec.ofNat 16 sym.name.length) ++ sym.name)

/-- The part of `savefile_save` that writes the table and its end. -/
def saveSymbols (root : SymbolTree) (file : List Byte) : List Byte :=
  saveSymbol (symbolsIterate saveSymbol root file).2 ⟨0, 0, []⟩

/-- The characters before the first zero. -/
def cString (buf : Buffer) (len : ℕ) : List Byte :=
  (buf.slice 0 len).takeWhile (· ≠ 0)

/-- `ntohs` on the field `namelen` in place. -/
def swapNamelen (entry : Buffer) : Buffer :=
  Function.update (Function.update entry 4 (entry 5)) 5 (entry 4)

/-- The loop of `load_symbols`.  There is no result when it does not come to
an end or when a negative length makes `malloc` fail. -/
def loadSymbolsLoop (junk : Buffer) :
    ℕ → Buffer → SymbolTree → ByteStream → Option (SymbolTree × ByteStream)
  | 0, _, _, _ => none
  | fuel + 1, entry, root, file =>
      let (entry, file) := file.read 6 entry
      if entry.read16 0 = 0 ∧ entry.read16 2 = 0 ∧ entry.read16 4 = 0 then
        some (root, file)
      else
        let namelen := (entry.read16 4).toNat
        if 2 ^ 15 ≤ namelen then none
        else
          let (name, file) := file.read namelen junk
          let sym := ⟨entry.read16 0, entry.read16 2, cString name namelen⟩
          loadSymbolsLoop junk fuel (swapNamelen entry) (symbolsAdd sym root)
            file

/-- At the end of the file a pass changes nothing any more, so that more
passes than bytes never end the loop. -/
def loadSymbols (junk : Buffer) (root : SymbolTree) (file : ByteStream) :
    Option (SymbolTree × ByteStream) :=
  loadSymbolsLoop junk (file.rest.length + 1) junk root file

/-- The names the format has room for. -/
def Symbol.Storable (sym : Symbol) : Prop :=
  sym.name ≠ [] ∧ sym.name.length ≤ 32767 ∧ 0 ∉ sym.name

instance : DecidablePred Symbol.Storable := fun _ =>
  inferInstanceAs (Decidable (_ ∧ _ ∧ _))

/-- The symbols a record brings back; only a nameless one at address zero is
taken for the end of the list. -/
def Symbol.Readable (sym : Symbol) : Prop :=
  sym.name.length ≤ 32767 ∧ 0 ∉ sym.name ∧ sym ≠ ⟨0, 0, []⟩

instance : DecidablePred Symbol.Readable := fun _ =>
  inferInstanceAs (Decidable (_ ∧ _ ∧ _))

theorem Symbol.Storable.readable {sym : Symbol} (hsym : sym.Storable) :
    sym.Readable := by
  obtain ⟨hne, hlen, hzero⟩ := hsym
  refine ⟨hlen, hzero, ?_⟩
  rintro rfl
  exact hne rfl

/-- The bytes of one record. -/
def record (sym : Symbol) : List Byte :=
  saveSymbol [] sym

theorem saveSymbol_eq (file : List Byte) (sym : Symbol) :
    saveSymbol file sym = file ++ record sym := by
  simp [saveSymbol, record]

theorem saveSymbols_eq (root : SymbolTree) (file : List Byte) :
    saveSymbols root file =
      file ++ (root.toList.flatMap record ++ record ⟨0, 0, []⟩) := by
  have hfold (syms : List Symbol) (file : List Byte) :
      syms.foldl saveSymbol file = file ++ syms.flatMap record := by
    induction syms generalizing file with
    | nil => simp
    | cons sym syms ih =>
        rw [List.foldl_cons, ih, saveSymbol_eq, List.flatMap_cons,
          List.append_assoc]
  rw [saveSymbols, symbolsIterate_eq, hfold, saveSymbol_eq,
    List.append_assoc]

theorem length_cString_le (buf : Buffer) (len : ℕ) :
    (cString buf len).length ≤ len := by
  apply (List.takeWhile_sublist _).length_le.trans
  simp [Buffer.slice]

theorem zero_notMem_cString (buf : Buffer) (len : ℕ) :
    0 ∉ cString buf len := by
  intro hzero
  simpa using List.mem_takeWhile_imp hzero

theorem cString_fill (junk : Buffer) {name : List Byte} (hzero : 0 ∉ name) :
    cString (junk.fill name) name.length = name := by
  rw [cString, Buffer.slice_fill, List.takeWhile_eq_self_iff]
  intro byte hbyte
  simp only [ne_eq, decide_not, Bool.not_eq_eq_eq_not, Bool.not_true,
    decide_eq_false_iff_not]
  intro heq
  exact hzero (heq ▸ hbyte)

section Records

variable (junk entry : Buffer) (root : SymbolTree) (rest : List Byte)
  (past : Bool) (fuel : ℕ)

/-- The header of a record as the loader finds it. -/
theorem header_fields (addr type namelen : Word) :
    (entry.fill (bytes16 addr ++ bytes16 type ++ bytes16 namelen)).read16 0 =
        addr ∧
      (entry.fill (bytes16 addr ++ bytes16 type ++ bytes16 namelen)).read16 2 =
        type ∧
      (entry.fill (bytes16 addr ++ bytes16 type ++ bytes16 namelen)).read16 4 =
        namelen := by
  refine ⟨?_, ?_, ?_⟩
  · exact append_bytes16 addr
  · exact append_bytes16 type
  · exact append_bytes16 namelen

theorem loadSymbolsLoop_end :
    loadSymbolsLoop junk (fuel + 1) entry root
        ⟨record ⟨0, 0, []⟩ ++ rest, past⟩ = some (root, ⟨rest, past⟩) := by
  obtain ⟨haddr, htype, hlen⟩ := header_fields entry 0 0 0
  have hrecord : record ⟨0, 0, []⟩ = bytes16 0 ++ bytes16 0 ++ bytes16 0 :=
    rfl
  rw [loadSymbolsLoop, hrecord, read_append entry (show _ = 6 from rfl)]
  simp only [haddr, htype, hlen, and_self, if_true]

theorem loadSymbolsLoop_record {sym : Symbol} (hsym : sym.Readable) :
    ∃ entry', loadSymbolsLoop junk (fuel + 1) entry root
        ⟨record sym ++ rest, past⟩ =
      loadSymbolsLoop junk fuel entry' (symbolsAdd sym root)
        ⟨rest, past⟩ := by
  obtain ⟨hlen, hzero, hend⟩ := hsym
  let namelen := BitVec.ofNat 16 sym.name.length
  obtain ⟨haddr, htype, hnamelen⟩ :=
    header_fields entry sym.addr sym.type namelen
  have hnat : namelen.toNat = sym.name.length := by
    rw [BitVec.toNat_ofNat]
    omega
  have hnonzero : ¬(sym.addr = 0 ∧ sym.type = 0 ∧ namelen = 0) := by
    rintro ⟨haddr, htype, hname⟩
    have hempty : sym.name = [] := by
      rw [← List.length_eq_zero_iff, ← hnat, hname]
      rfl
    apply hend
    cases sym
    simp_all
  have hrecord : record sym ++ rest =
      bytes16 sym.addr ++ bytes16 sym.type ++ bytes16 namelen ++
        (sym.name ++ rest) := by
    simp [record, saveSymbol, namelen]
  refine ⟨swapNamelen (entry.fill
    (bytes16 sym.addr ++ bytes16 sym.type ++ bytes16 namelen)), ?_⟩
  rw [loadSymbolsLoop, hrecord, read_append entry (show _ = 6 from rfl)]
  simp only [haddr, htype, hnamelen, hnat]
  rw [if_neg hnonzero, if_neg (by omega),
    read_append junk rfl]
  simp only [cString_fill junk hzero]

/-- The loader takes a written list of symbols one after the other and stops
behind its end. -/
theorem loadSymbolsLoop_records {syms : List Symbol}
    (hsyms : ∀ sym ∈ syms, sym.Readable) (hfuel : syms.length < fuel) :
    loadSymbolsLoop junk fuel entry root
        ⟨syms.flatMap record ++ record ⟨0, 0, []⟩ ++ rest, past⟩ =
      some (syms.foldl (fun root sym => symbolsAdd sym root) root,
        ⟨rest, past⟩) := by
  induction syms generalizing fuel entry root with
  | nil =>
      obtain ⟨fuel, rfl⟩ : ∃ n, fuel = n + 1 :=
        ⟨fuel - 1, (Nat.sub_add_cancel hfuel).symm⟩
      exact loadSymbolsLoop_end junk entry root rest past fuel
  | cons sym syms ih =>
      obtain ⟨fuel, rfl⟩ : ∃ n, fuel = n + 1 := ⟨fuel - 1, by omega⟩
      have hlength : syms.length < fuel := by
        rw [List.length_cons] at hfuel
        omega
      obtain ⟨entry', hstep⟩ := loadSymbolsLoop_record junk entry root
        (syms.flatMap record ++ record ⟨0, 0, []⟩ ++ rest) past fuel
        (hsyms sym List.mem_cons_self)
      rw [List.flatMap_cons, List.append_assoc, List.append_assoc,
        ← List.append_assoc (syms.flatMap record), hstep, List.foldl_cons]
      exact ih entry' _ fuel
        (fun other hother => hsyms other (List.mem_cons_of_mem _ hother))
        hlength

theorem length_le_flatMap_record (syms : List Symbol) :
    syms.length ≤ (syms.flatMap record).length := by
  induction syms with
  | nil => simp
  | cons sym syms ih =>
      have hrecord : 1 ≤ (record sym).length := by
        simp [record, saveSymbol]
        omega
      rw [List.flatMap_cons, List.length_append, List.length_cons]
      omega

theorem loadSymbols_saveSymbols {saved : SymbolTree}
    (hsaved : ∀ sym ∈ saved.toList, sym.Readable) :
    loadSymbols junk root ⟨saveSymbols saved [] ++ rest, past⟩ =
      some (saved.toList.foldl (fun root sym => symbolsAdd sym root) root,
        ⟨rest, past⟩) := by
  have hlength := length_le_flatMap_record saved.toList
  rw [loadSymbols, saveSymbols_eq, List.nil_append]
  apply loadSymbolsLoop_records junk junk root rest past _ hsaved
  simp only [List.length_append]
  omega

/-- A nameless symbol at address zero ends a written list early. -/
theorem loadSymbols_takeWhile {saved : SymbolTree}
    (hsaved : ∀ sym ∈ saved.toList,
      sym.name.length ≤ 32767 ∧ 0 ∉ sym.name) :
    ∃ rest', loadSymbols junk root ⟨saveSymbols saved [] ++ rest, past⟩ =
      some ((saved.toList.takeWhile (· ≠ ⟨0, 0, []⟩)).foldl
        (fun root sym => symbolsAdd sym root) root, ⟨rest', past⟩) := by
  let front := saved.toList.takeWhile (· ≠ ⟨0, 0, []⟩)
  have hfront : ∀ sym ∈ front, sym.Readable := by
    intro sym hsym
    obtain ⟨hlen, hzero⟩ := hsaved sym ((List.takeWhile_subset _) hsym)
    exact ⟨hlen, hzero, by simpa using List.mem_takeWhile_imp hsym⟩
  obtain ⟨rest', hbytes⟩ : ∃ rest',
      saved.toList.flatMap record ++ record ⟨0, 0, []⟩ ++ rest =
        front.flatMap record ++ record ⟨0, 0, []⟩ ++ rest' := by
    have hsplit := List.takeWhile_append_dropWhile
      (p := fun sym : Symbol => decide (sym ≠ ⟨0, 0, []⟩))
      (l := saved.toList)
    cases hrear : saved.toList.dropWhile (· ≠ ⟨0, 0, []⟩) with
    | nil =>
        rw [hrear, List.append_nil] at hsplit
        exact ⟨rest, by rw [← hsplit]⟩
    | cons sym rear =>
        have hsym : sym = ⟨0, 0, []⟩ := by
          have hhead := List.head?_dropWhile_not
            (fun sym : Symbol => decide (sym ≠ ⟨0, 0, []⟩)) saved.toList
          rw [hrear] at hhead
          simpa using hhead
        refine ⟨rear.flatMap record ++ record ⟨0, 0, []⟩ ++ rest, ?_⟩
        rw [hrear, hsym] at hsplit
        rw [← hsplit]
        simp [front, List.append_assoc]
  have hlength := length_le_flatMap_record front
  refine ⟨rest', ?_⟩
  rw [loadSymbols, saveSymbols_eq, List.nil_append, hbytes]
  apply loadSymbolsLoop_records junk junk root rest' past _ hfront
  simp only [List.length_append]
  omega

/-- Whatever the file, the loader only adds symbols, with names that fit. -/
theorem loadSymbolsLoop_added {fuel : ℕ} {junk entry : Buffer}
    {root root' : SymbolTree} {file file' : ByteStream}
    (hload : loadSymbolsLoop junk fuel entry root file =
      some (root', file')) :
    ∃ loaded : List Symbol,
      root' = loaded.foldl (fun root sym => symbolsAdd sym root) root ∧
      ∀ sym ∈ loaded, sym.name.length ≤ 32767 ∧ 0 ∉ sym.name := by
  induction fuel generalizing entry root file with
  | zero => cases hload
  | succ fuel ih =>
      rw [loadSymbolsLoop] at hload
      simp only at hload
      split at hload
      · cases hload
        exact ⟨[], rfl, by simp⟩
      · split at hload
        · cases hload
        · next hlen =>
            obtain ⟨loaded, hroot, hloaded⟩ := ih hload
            refine ⟨_ :: loaded, hroot, ?_⟩
            intro sym hsym
            rcases List.mem_cons.mp hsym with rfl | hsym
            · constructor
              · apply (length_cString_le _ _).trans
                omega
              · exact zero_notMem_cString _ _
            · exact hloaded sym hsym

end Records

/-- A written table comes back as it was and is read to its last byte. -/
def SymbolsSurvive (junk : Buffer) (saved root : SymbolTree) : Prop :=
  ∀ rest past, ∃ root',
    loadSymbols junk root ⟨saveSymbols saved [] ++ rest, past⟩ =
      some (root', ⟨rest, past⟩) ∧
    (root'.toList : Multiset Symbol) = saved.toList

/-- The loader adds to the table, so that the written table comes back only
when it is loaded into an empty one. -/
theorem symbolsSurvive_iff (junk : Buffer) {saved : SymbolTree}
    (root : SymbolTree) (hsaved : ∀ sym ∈ saved.toList, sym.Storable) :
    SymbolsSurvive junk saved root ↔ root = nil := by
  have hload (rest : List Byte) (past : Bool) :=
    loadSymbols_saveSymbols junk root rest past
      fun sym hsym => (hsaved sym hsym).readable
  have hperm := foldl_symbolsAdd_perm saved.toList root
  constructor
  · intro hsurvive
    obtain ⟨root', hloaded, hsame⟩ := hsurvive [] false
    rw [hload [] false, Option.some.injEq, Prod.mk.injEq] at hloaded
    rw [← hloaded.1, Multiset.coe_eq_coe] at hsame
    have hlength := (hperm.symm.trans hsame).length_eq
    rw [List.length_append] at hlength
    cases root with
    | nil => rfl
    | node left sym right =>
        simp only [toList, List.length_append, List.length_cons] at hlength
        omega
  · rintro rfl rest past
    refine ⟨_, hload rest past, ?_⟩
    rw [Multiset.coe_eq_coe]
    simpa [toList] using hperm

def sampleSymbol : Symbol := ⟨0x8000, 0, [0x61]⟩

/-- Three symbols at one address, two of them of one type, and one at
another. -/
def sampleTable : SymbolTree :=
  [sampleSymbol, ⟨0x8000, 0, [0x62]⟩, ⟨0x8000, 2, [0x63, 0x64]⟩,
    ⟨0x7ffe, 1, [0x65]⟩].foldl (fun root sym => symbolsAdd sym root) nil

theorem symbolsSurvive_sample :
    sampleTable.toList.length = 4 ∧
      SymbolsSurvive (fun _ => 0) sampleTable nil :=
  ⟨by decide +kernel,
    (symbolsSurvive_iff (fun _ => 0) nil (by decide +kernel)).mpr rfl⟩

/-- A table that is loaded back right after it was saved holds every symbol
twice. -/
theorem symbolsSurvive_fails :
    ¬SymbolsSurvive (fun _ => 0) (node nil sampleSymbol nil)
      (node nil sampleSymbol nil) := by
  intro hsurvive
  obtain ⟨root', hloaded, hsame⟩ := hsurvive [] false
  rw [loadSymbols_saveSymbols (fun _ => 0) _ [] false (by
      intro sym hsym
      exact Symbol.Storable.readable (by revert sym; decide)),
    Option.some.injEq, Prod.mk.injEq] at hloaded
  rw [← hloaded.1] at hsame
  exact absurd (congrArg Multiset.card hsame) (by decide +kernel)

end BrickEmu
