/-
What a line of the command line client means.

Model/CliLine.lean cuts the line in place. Here the line is a string:
`commandWord` and `afterWord` take it apart, and `lineExec` is the
command it asks for. The two meet in `StrAt`, which says what string a
pointer is at. Every function of the source that is given a pointer has
one lemma that says what it makes of the string there, and that it stays
within it.

What the lemmas cannot give is a string to start from. Behind a command
word that ends the line there is only the final NUL, `main` writes its
own over it and looks for the argument one position further: outside
(`extractCommand_outside`). With a blank behind the word it is the blank
that is overwritten, and the turn comes to `lineExec`
(`main_inside_iff`), line after line (`mainLoop_eq_cliLoop`). Such a
line can carry any key and any data (`main_sends`).
-/
import FineDB.Model.CliLine

namespace FineDB

open Effect Pointer

/-- A list that holds `c`, up to the first one. -/
theorem dropWhile_of_mem {s : Bytes} {c : Byte} (h : c ∈ s) :
    s.dropWhile (· ≠ c) = c :: (s.dropWhile (· ≠ c)).tail := by
  have hhead := List.head?_dropWhile_not (· ≠ c) s
  cases hd : s.dropWhile (· ≠ c) with
  | nil => simpa using List.dropWhile_eq_nil_iff.mp hd c h
  | cons x r =>
      rw [hd] at hhead
      have hx : x = c := by simpa using hhead
      rw [hx, List.tail_cons]

theorem eq_takeWhile_append {s : Bytes} {c : Byte} (h : c ∈ s) :
    s = s.takeWhile (· ≠ c) ++ c :: (s.dropWhile (· ≠ c)).tail := by
  rw [← dropWhile_of_mem h, List.takeWhile_append_dropWhile]

theorem cString_of_not_mem {s : Bytes} (h : 0 ∉ s) : cString s = s := by
  refine List.takeWhile_eq_self_iff.mpr fun c hc => ?_
  exact decide_eq_true fun h0 => h (h0 ▸ hc)

theorem eq_zero_of_tolower {c : Byte} (h : tolower c = tolower 0) :
    c = 0 := by
  change tolower c = 0 at h
  unfold tolower at h
  split at h
  next hc =>
    have hlow := UInt8.le_iff_toNat_le.mp hc.1
    have hhigh := UInt8.le_iff_toNat_le.mp hc.2
    have hsum := congrArg UInt8.toNat h
    rw [UInt8.toNat_add] at hsum
    simp at hlow hhigh hsum
    omega
  next => exact h

-- ======================================================== C strings in place

/-- The string at `pt` is `s`: its characters, then a NUL. -/
def StrAt (buf : Bytes) (pt : Nat) (s : Bytes) : Prop :=
  0 ∉ s ∧ ∃ rest, buf.drop pt = s ++ 0 :: rest

namespace StrAt

variable {buf : Bytes} {pt : Nat} {s : Bytes}

/-- What `*pt` gives: the first character, or the NUL. -/
theorem peek (h : StrAt buf pt s) :
    (peek pt : Line.OnLine Byte) buf = pure (s.headD 0, buf) := by
  obtain ⟨-, rest, hdrop⟩ := h
  cases s with
  | nil => exact peek_of hdrop
  | cons c s => exact peek_of hdrop

theorem drop {a b : Bytes} (h : StrAt buf pt (a ++ b)) :
    StrAt buf (pt + a.length) b := by
  obtain ⟨hs, rest, hdrop⟩ := h
  refine ⟨fun hb => hs (List.mem_append_right a hb), rest, ?_⟩
  rw [List.append_assoc] at hdrop
  exact drop_of_append hdrop

theorem tail {c : Byte} (h : StrAt buf pt (c :: s)) :
    StrAt buf (pt + 1) s :=
  StrAt.drop (a := [c]) h

theorem le_length (h : StrAt buf pt s) : pt ≤ buf.length := by
  obtain ⟨-, rest, hdrop⟩ := h
  have hlen := congrArg List.length hdrop
  rw [List.length_drop, List.length_append, List.length_cons] at hlen
  omega

/-- Every loop over a string stops at its NUL. -/
theorem skipWhile (h : StrAt buf pt s) (p : Byte → Bool) :
    (skipWhile (fun c => c ≠ 0 && p c) pt : Line.OnLine Nat) buf
      = pure (pt + (s.takeWhile p).length, buf) := by
  obtain ⟨hs, rest, hdrop⟩ := h
  have hpass : ∀ c ∈ s.takeWhile p, (decide (c ≠ 0) && p c) = true := by
    intro c hc
    have hne : c ≠ 0 := fun h0 =>
      hs (h0 ▸ (List.takeWhile_sublist p).subset hc)
    simp [hne, List.mem_takeWhile_imp hc]
  rw [← List.takeWhile_append_dropWhile (p := p) (l := s),
    List.append_assoc] at hdrop
  cases hd : s.dropWhile p with
  | nil =>
      rw [hd] at hdrop
      exact skipWhile_of hdrop hpass rfl
  | cons c r =>
      rw [hd] at hdrop
      have hc : p c = false := by
        have := List.head?_dropWhile_not p s
        rw [hd] at this
        exact this
      exact skipWhile_of hdrop hpass (by simp [hc])

theorem dropWhile (h : StrAt buf pt s) (p : Byte → Bool) :
    StrAt buf (pt + (s.takeWhile p).length) (s.dropWhile p) := by
  rw [← List.takeWhile_append_dropWhile (p := p) (l := s)] at h
  exact h.drop

theorem ltrim (h : StrAt buf pt s) :
    ∃ pt', pt ≤ pt' ∧ Line.ltrim pt buf = pure (pt', buf)
      ∧ StrAt buf pt' (ltrim s) :=
  ⟨_, Nat.le_add_right _ _, h.skipWhile isSpace, h.dropWhile isSpace⟩

theorem strlen (h : StrAt buf pt s) :
    Line.strlen pt buf = pure (s.length, buf) := by
  have hskip := h.skipWhile fun _ => true
  rw [List.takeWhile_eq_self_iff.mpr fun _ _ => rfl] at hskip
  simp only [Bool.and_true] at hskip
  rw [Line.strlen, bind_of hskip, Nat.add_sub_cancel_left]
  rfl

theorem string (h : StrAt buf pt s) :
    Line.string pt buf = pure (s, buf) := by
  obtain ⟨-, rest, hdrop⟩ := id h
  rw [Line.string, bind_of h.strlen]
  exact slice_of hdrop h.le_length

theorem strchr {c : Byte} (h : StrAt buf pt s) (hc : c ≠ 0) :
    Line.strchr pt c buf = pure (if c ∈ s
      then some (pt + (s.takeWhile (· ≠ c)).length) else none, buf) := by
  have hseen := (h.dropWhile (· ≠ c)).peek
  rw [Line.strchr, bind_of (h.skipWhile (· ≠ c)), bind_of hseen]
  by_cases hmem : c ∈ s
  · rw [dropWhile_of_mem hmem, List.headD_cons, if_pos rfl, if_pos hmem]
    rfl
  · have hnil : s.dropWhile (· ≠ c) = [] :=
      List.dropWhile_eq_nil_iff.mpr fun x hx =>
        decide_eq_true fun h0 => hmem (h0 ▸ hx)
    rw [hnil, List.headD_nil, if_neg hc.symm, if_neg hmem]
    rfl

/-- A comparison reads no further than the NUL. -/
theorem sameAs {f : Byte → Byte} (hf : ∀ c, f c = f 0 → c = 0)
    {word : Bytes} (hword : 0 ∉ word) (h : StrAt buf pt s) :
    Line.sameAs f pt word buf
      = pure (decide (s.map f = word.map f), buf) := by
  induction word generalizing pt s with
  | nil =>
      rw [Line.sameAs, bind_of h.peek]
      cases s with
      | nil => rfl
      | cons c s =>
          have hc : c ≠ 0 := fun h0 => h.1 (h0 ▸ List.mem_cons_self)
          simp only [List.headD_cons, hc, List.map_cons, List.map_nil]
          rfl
  | cons w word ih =>
      rw [Line.sameAs, bind_of h.peek]
      cases s with
      | nil =>
          have hw : f 0 ≠ f w := fun h0 =>
            hword (hf w h0.symm ▸ List.mem_cons_self)
          rw [List.headD_nil, if_neg hw]
          rfl
      | cons c s =>
          rw [List.headD_cons]
          by_cases hcw : f c = f w
          · rw [if_pos hcw,
              ih (fun h0 => hword (List.mem_cons_of_mem w h0)) h.tail]
            simp [hcw]
          · rw [if_neg hcw]
            simp [hcw]
            rfl

/-- A write behind the string is not seen in it. -/
theorem set_of_lt (h : StrAt buf pt s) {i : Nat} (hi : pt + s.length < i)
    (c : Byte) : StrAt (buf.set i c) pt s := by
  obtain ⟨hs, rest, hdrop⟩ := h
  refine ⟨hs, rest.set (i - (pt + s.length + 1)) c, ?_⟩
  obtain ⟨j, rfl⟩ : ∃ j, i = pt + s.length + 1 + j :=
    ⟨i - (pt + s.length + 1), by omega⟩
  rw [List.drop_set, if_neg (by omega), hdrop,
    show pt + s.length + 1 + j - pt = s.length + (j + 1) by omega,
    List.set_append_right _ _ (by omega),
    show s.length + (j + 1) - s.length = j + 1 by omega, List.set_cons_succ,
    show pt + s.length + 1 + j - (pt + s.length + 1) = j by omega]

/-- A NUL written over a character cuts the string in two. -/
theorem cut {a b : Bytes} {c : Byte} (h : StrAt buf pt (a ++ c :: b)) :
    (poke (pt + a.length) 0 : Line.OnLine Unit) buf
        = pure ((), buf.set (pt + a.length) 0)
      ∧ StrAt (buf.set (pt + a.length) 0) pt a
      ∧ StrAt (buf.set (pt + a.length) 0) (pt + a.length + 1) b := by
  obtain ⟨hs, rest, hdrop⟩ := id h
  rw [List.append_assoc, List.cons_append] at hdrop
  refine ⟨poke_of (drop_of_append hdrop), ⟨?_, b ++ 0 :: rest, ?_⟩, ?_, ?_⟩
  · exact fun ha => hs (List.mem_append_left _ ha)
  · exact drop_set_of_append 0 hdrop
  · exact h.drop.tail.1
  · obtain ⟨-, rest', hrest⟩ := h.drop.tail
    rw [drop_set_of_lt (by omega)]
    exact ⟨rest', hrest⟩

theorem cut_head {c : Byte} (h : StrAt buf pt (c :: s)) :
    (poke pt 0 : Line.OnLine Unit) buf = pure ((), buf.set pt 0)
      ∧ StrAt (buf.set pt 0) (pt + 1) s := by
  obtain ⟨hpoke, -, hs⟩ := StrAt.cut (a := []) h
  exact ⟨hpoke, hs⟩

/-- Where `pt + strlen(pt) - 1` is. -/
theorem last_eq (t : Bytes) (last : Byte) :
    pt + (t ++ [last]).length - 1 = pt + t.length := by
  rw [List.length_append, List.length_singleton]
  omega

theorem headD_ne_zero (h : StrAt buf pt s) (hs : s ≠ []) :
    s.headD 0 ≠ 0 := by
  cases s with
  | nil => exact absurd rfl hs
  | cons c s => exact fun h0 => h.1 (h0 ▸ List.mem_cons_self)

theorem strcasecmp {word : Bytes} (h : StrAt buf pt s)
    (hword : 0 ∉ word) :
    Line.strcasecmp pt word buf = pure (sameWord s word, buf) := by
  rw [Line.strcasecmp, h.sameAs (fun _ => eq_zero_of_tolower) hword,
    sameWord, cString_of_not_mem h.1, cString_of_not_mem hword]

-- ================================================================ arguments

/-- A key is found in the buffer where it is in the string, and what
follows it is left as it was. -/
theorem quotedKey (h : StrAt buf pt s) :
    (quotedKey s = none ∧ Line.quotedKey pt buf = pure (none, buf))
      ∨ ∃ key rest k e buf', quotedKey s = some (key, rest)
        ∧ Line.quotedKey pt buf = pure (some (k, e), buf')
        ∧ k + key.length = e ∧ StrAt buf' k key
        ∧ StrAt buf' (e + 1) rest := by
  obtain ⟨pt', -, hltrim, ht⟩ := h.ltrim
  rw [Line.quotedKey, bind_of hltrim, bind_of ht.peek, FineDB.quotedKey,
    cString_of_not_mem h.1]
  cases hs : FineDB.ltrim s with
  | nil => exact Or.inl ⟨rfl, rfl⟩
  | cons q t =>
      rw [hs] at ht
      by_cases hq : q = 0x22
      · subst hq
        rw [List.headD_cons, if_neg (not_not.mpr rfl), bind_of ht.tail.peek]
        cases t with
        | nil => exact Or.inl ⟨rfl, rfl⟩
        | cons c t =>
            rw [if_neg (ht.tail.headD_ne_zero (List.cons_ne_nil c t)),
              bind_of (ht.tail.strchr (by decide))]
            by_cases hmem : 0x22 ∈ c :: t
            · have hkey := ht.tail
              rw [eq_takeWhile_append hmem] at hkey
              obtain ⟨hpoke, hk, hrest⟩ := hkey.cut
              refine Or.inr ⟨_, _, _, _, _, if_pos hmem, ?_, rfl, hk, hrest⟩
              rw [if_pos hmem]
              exact bind_of hpoke
            · refine Or.inl ⟨if_neg hmem, ?_⟩
              rw [if_neg hmem]
              rfl
      · refine Or.inl ⟨?_, ?_⟩
        · split
          next heq => exact absurd (List.cons.inj heq).1 hq
          next => rfl
        · rw [List.headD_cons, if_pos hq]
          rfl

/-- The same for data, which strings in front of it do not notice. -/
theorem quotedData (h : StrAt buf pt s) :
    (quotedData s = none ∧ ∃ buf', Line.quotedData pt buf
        = pure (none, buf'))
      ∨ ∃ data d buf', quotedData s = some data
        ∧ Line.quotedData pt buf = pure (some d, buf') ∧ StrAt buf' d data
        ∧ ∀ k key, k + key.length < pt → StrAt buf k key →
          StrAt buf' k key := by
  rw [Line.quotedData, bind_of h.peek]
  cases s with
  | nil => exact Or.inl ⟨rfl, buf, rfl⟩
  | cons c s =>
      obtain ⟨hpoke, hs⟩ := h.cut_head
      obtain ⟨data, hle, hltrim, ht⟩ := hs.ltrim
      rw [if_neg (h.headD_ne_zero (List.cons_ne_nil c s)), bind_of hpoke,
        bind_of hltrim, bind_of ht.peek, FineDB.quotedData]
      cases htrim : FineDB.ltrim s with
      | nil => exact Or.inl ⟨rfl, _, rfl⟩
      | cons q t =>
          rw [htrim] at ht
          by_cases hq : q = 0x22
          · subst hq
            rw [List.headD_cons, if_neg (not_not.mpr rfl),
              bind_of ht.tail.peek]
            rcases List.eq_nil_or_concat t with rfl | ⟨t, last, rfl⟩
            · exact Or.inl ⟨rfl, _, rfl⟩
            rw [List.concat_eq_append] at ht ⊢
            rw [if_neg (ht.tail.headD_ne_zero (by simp)),
              bind_of ht.tail.strlen]
            simp only [last_eq]
            rw [bind_of ht.tail.drop.peek, List.headD_cons]
            by_cases hlast : last = 0x22
            · obtain ⟨hend, hdata, -⟩ := ht.tail.cut
              refine Or.inr ⟨t, data + 1, _, ?_, ?_, hdata, ?_⟩
              · simp [hlast]
              · rw [if_neg (not_not.mpr hlast), bind_of hend]
                rfl
              · intro k key hk hkey
                exact (hkey.set_of_lt hk 0).set_of_lt (by omega) 0
            · refine Or.inl ⟨?_, buf.set pt 0, ?_⟩
              · simp [hlast]
              · rw [if_pos hlast]
                rfl
          · refine Or.inl ⟨?_, buf.set pt 0, ?_⟩
            · split
              next heq => exact absurd (List.cons.inj heq).1 hq
              next => rfl
            · rw [List.headD_cons, if_pos hq]
              rfl

end StrAt

-- ================================================================= commands

variable {buf : Bytes} {pt : Nat} {s : Bytes}

theorem whenConnected_line {cli : Cli} {k : Cli → Line.OnLine Cli}
    {k' : Cli → CliProg Cli} (h : ∀ cli, k cli buf = outer (k' cli) buf) :
    Line.whenConnected cli k buf = outer (whenConnected cli k') buf := by
  rw [Line.whenConnected, whenConnected, outer_bind_outer]
  apply outer_bind_congr
  rintro ⟨ok, cli⟩
  cases ok with
  | false => exact pure_eq_outer _ _
  | true => exact h cli

/-- A request whose arguments have been read. -/
theorem request_line (cli : Cli) (op : ClientOp) :
    (do let _ ← outer (cliAsk (.finedb cli op)); return cli :
        Line.OnLine Cli) buf
      = outer (do let _ ← cliAsk (.finedb cli op); return cli) buf := by
  rw [outer_bind_outer]
  exact outer_bind_congr _ fun _ => pure_eq_outer _ _

theorem StrAt.isDefault (h : StrAt buf pt s) :
    Line.isDefault pt buf
      = pure (cString s = [] || sameWord s defaultWord, buf) := by
  rw [Line.isDefault, bind_of h.strlen, cString_of_not_mem h.1]
  cases s with
  | nil => rfl
  | cons c s =>
      rw [List.length_cons, if_neg (Nat.succ_ne_zero _),
        h.strcasecmp (by decide)]
      rfl

theorem StrAt.commandUse (cli : Cli) (h : StrAt buf pt s) :
    Line.commandUse cli pt buf = outer (commandUse cli s) buf := by
  refine whenConnected_line fun cli => ?_
  rw [bind_of h.isDefault, cString_of_not_mem h.1]
  cases decide (s = []) || sameWord s defaultWord with
  | true =>
      simp only [if_true]
      rw [outer_bind_outer]
      refine outer_bind_congr _ fun rc => ?_
      split <;> exact pure_eq_outer _ _
  | false =>
      simp only [Bool.false_eq_true, if_false]
      rw [bind_of h.string, outer_bind_outer]
      refine outer_bind_congr _ fun rc => ?_
      split
      · rw [bind_of h.string, outer_bind_outer]
        refine outer_bind_congr _ fun ok => ?_
        split <;> exact pure_eq_outer _ _
      · rw [outer_bind_outer]
        exact outer_bind_congr _ fun e => e.elim

/-- A command for one key, `quotedKey` being what it makes of its
argument. -/
theorem StrAt.keyCommand (cli : Cli) (op : Bytes → ClientOp)
    (h : StrAt buf pt s) :
    ∃ buf', Line.keyCommand cli pt op buf = outer ((FineDB.quotedKey s).elim
      (pure cli) fun x => sendData cli (op x.1)) buf' := by
  rcases h.quotedKey with ⟨hs, hline⟩ |
    ⟨key, rest, k, e, buf', hs, hline, -, hkey, -⟩
  · refine ⟨buf, ?_⟩
    rw [Line.keyCommand, bind_of hline, hs]
    exact pure_eq_outer _ _
  · refine ⟨buf', ?_⟩
    rw [Line.keyCommand, bind_of hline, hs]
    simp only [Option.elim_some]
    refine whenConnected_line fun cli => ?_
    rw [bind_of hkey.string]
    exact request_line cli (op key)

theorem StrAt.commandGet (cli : Cli) (h : StrAt buf pt s) :
    ∃ buf', Line.commandGet cli pt buf
      = outer (commandCliGet cli s) buf' := by
  obtain ⟨buf', hline⟩ := h.keyCommand cli .get
  refine ⟨buf', hline.trans ?_⟩
  rw [commandCliGet]
  cases FineDB.quotedKey s <;> rfl

theorem StrAt.commandDel (cli : Cli) (h : StrAt buf pt s) :
    ∃ buf', Line.commandDel cli pt buf
      = outer (commandCliDel cli s) buf' := by
  obtain ⟨buf', hline⟩ := h.keyCommand cli .del
  refine ⟨buf', hline.trans ?_⟩
  rw [commandCliDel]
  cases FineDB.quotedKey s <;> rfl

theorem StrAt.commandSendData (cli : Cli) (create_only update_only : Bool)
    (h : StrAt buf pt s) :
    ∃ buf', Line.commandSendData cli pt create_only update_only buf
      = outer (commandSendData cli s
          (Line.sendOp create_only update_only)) buf' := by
  rw [Line.commandSendData, FineDB.commandSendData]
  rcases h.quotedKey with ⟨hs, hline⟩ |
    ⟨key, rest, k, e, buf₁, hs, hline, he, hkey, hrest⟩
  · refine ⟨buf, ?_⟩
    rw [bind_of hline, hs]
    exact pure_eq_outer _ _
  rw [bind_of hline, hs]
  rcases hrest.quotedData with ⟨hr, buf₂, hline₂⟩ |
    ⟨data, d, buf₂, hr, hline₂, hdata, hkept⟩
  · refine ⟨buf₂, ?_⟩
    simp only [hr]
    rw [bind_of hline₂]
    exact pure_eq_outer _ _
  · refine ⟨buf₂, ?_⟩
    simp only [hr]
    rw [bind_of hline₂]
    refine whenConnected_line fun cli => ?_
    rw [bind_of (hkept k key (by omega) hkey).string, bind_of hdata.string]
    exact request_line cli _

theorem StrAt.anyWord {words : List Bytes} (h : StrAt buf pt s)
    (hwords : ∀ word ∈ words, 0 ∉ word) :
    Line.anyWord pt words buf = pure (words.any (sameWord s), buf) := by
  induction words with
  | nil => rfl
  | cons word words ih =>
      rw [Line.anyWord,
        bind_of (h.strcasecmp (hwords word List.mem_cons_self)),
        List.any_cons]
      cases sameWord s word with
      | true => rfl
      | false => exact ih fun w hw => hwords w (List.mem_cons_of_mem word hw)

theorem StrAt.commandAutocheck (cli : Cli) (h : StrAt buf pt s) :
    Line.commandAutocheck cli pt buf
      = (pure (commandAutocheck cli s) : Line.OnLine Cli) buf := by
  have hstrcmp : Line.strcmp pt [0x31] buf
      = pure (decide (s = [0x31]), buf) := by
    rw [Line.strcmp, h.sameAs (f := id) (fun _ h0 => h0) (by decide)]
    simp only [List.map_id]
  rw [Line.commandAutocheck, bind_of h.strlen, FineDB.commandAutocheck,
    cString_of_not_mem h.1]
  cases s with
  | nil => rfl
  | cons c s =>
      rw [List.length_cons, if_neg (Nat.succ_ne_zero _),
        if_neg (List.cons_ne_nil c s), bind_of (h.anyWord (by decide))]
      cases onWords.any (sameWord (c :: s)) with
      | true => rfl
      | false => exact bind_of hstrcmp

-- ================================================================= the line

/-- The command word of a line. -/
def commandWord (line : Bytes) : Bytes :=
  (ltrim line).takeWhile fun c => !isSpace c

/-- What stands behind the command word. -/
def afterWord (line : Bytes) : Bytes :=
  (ltrim line).dropWhile fun c => !isSpace c

/-- Whether a word is one of those `main` knows. -/
def isWord (word : Bytes) (w : Line.CommandWord) : Bool :=
  sameWord word w.text || (w = .help && word.head? = some 0x3f)

/-- The command a word stands for. The other words do nothing, or
leave. -/
def Line.CommandWord.command (arg : Bytes) :
    Line.CommandWord → Option CliCommand
  | .sync => some .sync
  | .async => some .async
  | .use => some (.use arg)
  | .get => some (.get arg)
  | .del => some (.del arg)
  | .put => some (.put arg)
  | .add => some (.add arg)
  | .update => some (.update arg)
  | .start => some .start
  | .stop => some .stop
  | .ping => some .ping
  | .autocheck => some (.autocheck arg)
  | .exit | .quit | .help | .inc | .dec => none

def Line.CommandWord.leaves (w : Line.CommandWord) : Bool :=
  w = .exit || w = .quit

/-- A word and its argument, `none` once `main` has left. -/
def wordExec (cli : Cli) (arg : Bytes) (w : Line.CommandWord) :
    CliProg (Option Cli) :=
  if w.leaves then return none
  else
    match w.command arg with
    | none => return some cli
    | some command => return some (← command.exec cli)

def lineWord (line : Bytes) : Option Line.CommandWord :=
  Line.CommandWord.all.find? (isWord (commandWord line))

/-- What a line asks for. -/
def lineExec (cli : Cli) (line : Bytes) : CliProg (Option Cli) :=
  match lineWord line with
  | none => return some cli
  | some w => wordExec cli (ltrim (afterWord line)) w

theorem StrAt.isCommand (h : StrAt buf pt s) (w : Line.CommandWord) :
    Line.isCommand pt w buf = pure (isWord s w, buf) := by
  have htext : 0 ∉ w.text := by cases w <;> decide
  rw [Line.isCommand, bind_of (h.strcasecmp htext), isWord]
  cases sameWord s w.text with
  | true => rfl
  | false =>
      by_cases hw : w = .help
      · rw [if_neg Bool.false_ne_true, if_pos hw, bind_of h.peek]
        cases s with
        | nil => simp [hw]; rfl
        | cons c s => simp [hw]; rfl
      · rw [if_neg Bool.false_ne_true, if_neg hw]
        simp [hw]
        rfl

theorem StrAt.findWord (h : StrAt buf pt s) (ws : List Line.CommandWord) :
    Line.findWord pt ws buf = pure (ws.find? (isWord s), buf) := by
  induction ws with
  | nil => rfl
  | cons w ws ih =>
      rw [Line.findWord, bind_of (h.isCommand w), List.find?_cons]
      cases isWord s w with
      | true => rfl
      | false => exact ih

/-- Nothing more is done to what a command leaves. -/
private theorem return_some {x : Line.OnLine Cli} {p : CliProg Cli}
    (h : ∃ buf', x buf = outer p buf') :
    ∃ buf', (do return some (← x) : Line.OnLine (Option Cli)) buf
      = outer (do return some (← p)) buf' := by
  obtain ⟨buf', hx⟩ := h
  refine ⟨buf', (bind_of_eq _ hx).trans ?_⟩
  rw [outer_bind_outer]
  exact outer_bind_congr p fun _ => pure_eq_outer _ _

theorem StrAt.execWord (cli : Cli) (h : StrAt buf pt s)
    (w : Line.CommandWord) :
    ∃ buf', Line.execWord cli pt w buf
      = outer (wordExec cli s w) buf' := by
  cases w with
  | exit => exact ⟨buf, pure_eq_outer _ _⟩
  | quit => exact ⟨buf, pure_eq_outer _ _⟩
  | help => exact ⟨buf, pure_eq_outer _ _⟩
  | sync => exact ⟨buf, pure_eq_outer _ _⟩
  | async => exact ⟨buf, pure_eq_outer _ _⟩
  | use => exact return_some ⟨buf, h.commandUse cli⟩
  | get => exact return_some (h.commandGet cli)
  | del => exact return_some (h.commandDel cli)
  | put => exact return_some (h.commandSendData cli false false)
  | add => exact return_some (h.commandSendData cli true false)
  | update => exact return_some (h.commandSendData cli false true)
  | inc => exact ⟨buf, pure_eq_outer _ _⟩
  | dec => exact ⟨buf, pure_eq_outer _ _⟩
  | start => exact return_some ⟨buf, rfl⟩
  | stop => exact return_some ⟨buf, rfl⟩
  | ping => exact return_some ⟨buf, rfl⟩
  | autocheck =>
      exact return_some ⟨buf,
        (h.commandAutocheck cli).trans (pure_eq_outer _ buf)⟩

-- ==================================================================== main

variable {line : Bytes}

theorem strAt_line (h : 0 ∉ line) : StrAt (line ++ [0]) 0 line :=
  ⟨h, [], rfl⟩

/-- Where the command word starts. -/
def wordStart (line : Bytes) : Nat := 0 + (line.takeWhile isSpace).length

theorem strAt_wordStart (h : 0 ∉ line) :
    StrAt (line ++ [0]) (wordStart line) (ltrim line) :=
  (strAt_line h).dropWhile isSpace

theorem commandWord_append_afterWord (line : Bytes) :
    commandWord line ++ afterWord line = ltrim line :=
  List.takeWhile_append_dropWhile

/-- The extraction up to the NUL it writes. -/
theorem extractCommand_eq (h : 0 ∉ line) {buf : Bytes}
    (hpoke : (poke (wordStart line + (commandWord line).length) 0 :
      Line.OnLine Unit) (line ++ [0]) = pure ((), buf)) :
    Line.extractCommand (line ++ [0])
      = (do return (wordStart line, ← Line.ltrim
          (wordStart line + (commandWord line).length + 1)) :
        Line.OnLine (Nat × Nat)) buf := by
  have hcmd : Line.ltrim 0 (line ++ [0])
      = pure (wordStart line, line ++ [0]) :=
    (strAt_line h).skipWhile isSpace
  have hword := (strAt_wordStart h).skipWhile fun c => !isSpace c
  rw [Line.extractCommand, bind_of hcmd, bind_of hword, ← commandWord,
    bind_of hpoke]

/-- A blank behind the command word is what the NUL is written over. -/
theorem extractCommand_inside (h : 0 ∉ line) (hafter : afterWord line ≠ []) :
    ∃ cmd pt buf, Line.extractCommand (line ++ [0]) = pure ((cmd, pt), buf)
      ∧ StrAt buf cmd (commandWord line)
      ∧ StrAt buf pt (ltrim (afterWord line)) := by
  obtain ⟨c, rest, hrest⟩ := List.exists_cons_of_ne_nil hafter
  have hc : isSpace c = true := by
    have hhead := List.head?_dropWhile_not (fun c => !isSpace c) (ltrim line)
    rw [← afterWord, hrest] at hhead
    simpa using hhead
  have hline := strAt_wordStart h
  rw [← commandWord_append_afterWord, hrest] at hline
  obtain ⟨hpoke, hword, harg⟩ := hline.cut
  obtain ⟨pt, -, hltrim, hpt⟩ := harg.ltrim
  refine ⟨wordStart line, pt, _, ?_, hword, ?_⟩
  · rw [extractCommand_eq h hpoke]
    exact bind_of hltrim
  · rw [hrest, ltrim, List.dropWhile_cons_of_pos hc]
    exact hpt

/-- A word that ends the line has its NUL written where one is already,
and the argument is looked for behind it. -/
theorem extractCommand_outside (h : 0 ∉ line) (hafter : afterWord line = []) :
    Line.extractCommand (line ++ [0]) = throw (line.length + 1) := by
  have hword := commandWord_append_afterWord line
  rw [hafter, List.append_nil] at hword
  have hend : wordStart line + (commandWord line).length = line.length := by
    have hlen := congrArg List.length
      (List.takeWhile_append_dropWhile (p := isSpace) (l := line))
    rw [List.length_append] at hlen
    rw [hword, wordStart, ltrim]
    omega
  have hlast : (line ++ [0]).drop line.length = [0] := List.drop_left
  have hpoke : (poke line.length 0 : Line.OnLine Unit) (line ++ [0])
      = pure ((), (line ++ [0]).set line.length 0) := poke_of hlast
  rw [extractCommand_eq h (hend ▸ hpoke), hend]
  exact bind_of_throw (skipWhile_end (by simp))

/-- One turn of the loop comes to what the line asks for. -/
theorem main_inside (cli : Cli) (h : 0 ∉ line) (hafter : afterWord line ≠ []) :
    ∃ buf, Line.main cli (line ++ [0]) = outer (lineExec cli line) buf := by
  obtain ⟨cmd, pt, buf, hextract, hcmd, hpt⟩ :=
    extractCommand_inside h hafter
  rw [Line.main, bind_of hextract]
  simp only
  rw [bind_of hcmd.peek, lineExec, lineWord]
  by_cases hword : commandWord line = []
  · rw [hword]
    exact ⟨buf, pure_eq_outer _ _⟩
  · rw [if_neg (hcmd.headD_ne_zero hword), bind_of (hcmd.findWord _)]
    cases Line.CommandWord.all.find? (isWord (commandWord line)) with
    | none => exact ⟨buf, pure_eq_outer _ _⟩
    | some w => exact hpt.execWord cli w

/-- The commands in a session, from lines with a blank behind their
word. -/
def lineCommand (line : Bytes) : Option CliCommand :=
  (lineWord line).bind (·.command (ltrim (afterWord line)))

/-- A line that is cut in place and does not leave `main`. -/
structure PlainLine (line : Bytes) : Prop where
  noNul : 0 ∉ line
  blank : afterWord line ≠ []
  stays : ∀ w, lineWord line = some w → w.leaves = false

theorem PlainLine.lineExec (cli : Cli) (h : PlainLine line) :
    lineExec cli line
      = (do return some (← ((lineCommand line).elim (pure cli)
          (CliCommand.exec cli)))) := by
  rw [FineDB.lineExec, lineCommand]
  cases hw : lineWord line with
  | none => rfl
  | some w =>
      simp only [wordExec, h.stays w hw, Option.bind_some]
      cases w.command (ltrim (afterWord line)) <;> rfl

/-- The loop over the lines is the loop over their commands. -/
theorem mainLoop_eq_cliLoop (cli : Cli) {lines : List Bytes}
    (h : ∀ line ∈ lines, PlainLine line) :
    (Line.mainLoop cli lines).run
      = (do return .ok (some (← cliLoop cli
          (lines.filterMap lineCommand)))) := by
  induction lines generalizing cli with
  | nil => rfl
  | cons line lines ih =>
      have hline := h line List.mem_cons_self
      obtain ⟨buf, hmain⟩ := main_inside cli hline.noNul hline.blank
      have hrest := fun cli => ih cli fun l hl =>
        h l (List.mem_cons_of_mem line hl)
      rw [Line.mainLoop, run'_bind_of_outer hmain, hline.lineExec,
        bind_assoc]
      simp only [pure_bind, hrest]
      cases hc : lineCommand line with
      | none => rw [List.filterMap_cons_none hc, Option.elim_none, pure_bind]
      | some command =>
          rw [List.filterMap_cons_some hc, cliLoop, bind_assoc,
            Option.elim_some]

/-- No turn over the line accesses a position outside of it. -/
def StaysInside (cli : Cli) (line : Bytes) : Prop :=
  (Line.main cli (line ++ [0])).run.Ensures fun r => ∀ i, r ≠ .error i

theorem staysInside_of_outer {cli : Cli} {p : CliProg (Option Cli)}
    {buf : Bytes} (h : Line.main cli (line ++ [0]) = outer p buf) :
    StaysInside cli line := by
  rw [StaysInside, h, outer_run, Prog.ensures_bind]
  exact (Prog.ensures_true p).mono fun _ _ i hi => nomatch hi

/-- `main` and the commands stay in the line if and only if a blank
follows the command word. They then do what the line asks for; without
it, `main` reads the character behind the final NUL. -/
theorem main_inside_iff (cli : Cli) (line : Bytes) (h : 0 ∉ line) :
    (StaysInside cli line ↔ afterWord line ≠ [])
      ∧ (afterWord line ≠ [] → ∃ buf,
        Line.main cli (line ++ [0]) = outer (lineExec cli line) buf)
      ∧ (afterWord line = [] →
        Line.main cli (line ++ [0]) = throw (line.length + 1)) := by
  have hout : afterWord line = [] →
      Line.main cli (line ++ [0]) = throw (line.length + 1) :=
    fun hafter => bind_of_throw (extractCommand_outside h hafter)
  refine ⟨⟨fun hin hafter => ?_, fun hafter => ?_⟩, main_inside cli h, hout⟩
  · rw [StaysInside, hout hafter] at hin
    exact hin _ rfl
  · obtain ⟨buf, hmain⟩ := main_inside cli h hafter
    exact staysInside_of_outer hmain

theorem main_inside_get :
    StaysInside cliNew [0x67, 0x65, 0x74, 0x20, 0x22, 0x6b, 0x22] :=
  (main_inside_iff cliNew _ (by decide)).1.mpr (by decide)

/-- `ping` and the empty line, which is read up to position 1. -/
theorem main_leaves_line :
    Line.main cliNew ([0x70, 0x69, 0x6e, 0x67] ++ [0]) = throw 5
      ∧ Line.main cliNew ([] ++ [0]) = throw 1
      ∧ ¬ StaysInside cliNew [0x70, 0x69, 0x6e, 0x67]
      ∧ ¬ StaysInside cliNew [] :=
  ⟨rfl, rfl, fun h => h 5 rfl, fun h => h 1 rfl⟩

-- ============================================================= quoted values

def quoted (s : Bytes) : Bytes := 0x22 :: (s ++ [0x22])

def Blank (b : Bytes) : Prop := ∀ c ∈ b, isSpace c = true

instance (b : Bytes) : Decidable (Blank b) :=
  List.decidableBAll (fun c => isSpace c = true) b

theorem ltrim_blank {b : Bytes} (h : Blank b) (s : Bytes) :
    ltrim (b ++ s) = ltrim s :=
  List.dropWhile_append_of_pos h

theorem ltrim_quoted (s rest : Bytes) :
    ltrim (quoted s ++ rest) = quoted s ++ rest := rfl

theorem quotedKey_quoted {key rest : Bytes} (hkey : 0x22 ∉ key)
    (h : 0 ∉ quoted key ++ rest) :
    quotedKey (quoted key ++ rest) = some (key, rest) := by
  have hpass : ∀ c ∈ key, decide (c ≠ 0x22) = true :=
    fun c hc => decide_eq_true fun h0 => hkey (h0 ▸ hc)
  rw [quotedKey, cString_of_not_mem h, ltrim_quoted]
  simp only [quoted, List.cons_append, List.append_assoc, List.nil_append]
  rw [if_pos (by simp), List.takeWhile_append_of_pos hpass,
    List.dropWhile_append_of_pos hpass]
  simp

theorem quotedData_quoted {b : Bytes} (hb : Blank b) (hne : b ≠ [])
    (data : Bytes) : quotedData (b ++ quoted data) = some data := by
  obtain ⟨c, b, rfl⟩ := List.exists_cons_of_ne_nil hne
  have hb' : Blank b := fun x hx => hb x (List.mem_cons_of_mem c hx)
  rw [List.cons_append, quotedData, ltrim_blank hb',
    ← List.append_nil (quoted data), ltrim_quoted]
  simp [quoted]

/-- The function of the library a command word comes to. -/
def Line.CommandWord.sends :
    Line.CommandWord → Option (Bytes → Bytes → ClientOp)
  | .put => some .put
  | .add => some .add
  | .update => some .update
  | _ => none

section Word

variable {word : Bytes} {w : Line.CommandWord}

/-- A character that is no capital is in a word in any letter case only if
it is in the word. -/
theorem not_mem_word (hword : word.map tolower = w.text) {c : Byte}
    (hc : tolower c = c) (hnot : c ∉ w.text) : c ∉ word := by
  intro hmem
  have hlow := List.mem_map_of_mem (f := tolower) hmem
  rw [hc, hword] at hlow
  exact hnot hlow

theorem not_space_of_word (hword : word.map tolower = w.text) :
    ∀ c ∈ word, (!isSpace c) = true := by
  intro c hc
  rw [Bool.not_eq_true']
  by_contra hspace
  have hcases : c = 0x20 ∨ c = 0x09 ∨ c = 0x0a ∨ c = 0x0d := by
    rw [Bool.not_eq_false] at hspace
    simpa only [isSpace, Bool.or_eq_true, decide_eq_true_eq, or_assoc]
      using hspace
  rcases hcases with rfl | rfl | rfl | rfl <;>
    exact not_mem_word hword (by decide) (by cases w <;> decide) hc

theorem isWord_congr (hword : word.map tolower = w.text) :
    isWord word = isWord w.text := by
  have hzero : 0 ∉ word :=
    not_mem_word hword (by decide) (by cases w <;> decide)
  have hmark : word.head? ≠ some 0x3f := fun h =>
    not_mem_word (c := 0x3f) hword (by decide) (by cases w <;> decide)
      (List.mem_of_head? h)
  have htext : (cString w.text).map tolower = w.text
      ∧ w.text.head? ≠ some 0x3f := by
    cases w <;> decide
  funext w'
  rw [isWord, isWord, sameWord, sameWord, cString_of_not_mem hzero, hword,
    htext.1]
  simp [hmark, htext.2]

theorem find_word (hword : word.map tolower = w.text) :
    Line.CommandWord.all.find? (isWord word) = some w := by
  rw [isWord_congr hword]
  cases w <;> decide

/-- A line that starts with the word, blanks around it. -/
theorem lineExec_word (cli : Cli) (hword : word.map tolower = w.text)
    {b₀ b₁ : Bytes} (hb₀ : Blank b₀) (hb₁ : Blank b₁) (hne : b₁ ≠ [])
    (rest : Bytes) :
    lineExec cli (b₀ ++ (word ++ (b₁ ++ rest)))
        = wordExec cli (ltrim rest) w
      ∧ afterWord (b₀ ++ (word ++ (b₁ ++ rest))) ≠ [] := by
  obtain ⟨c, b, rfl⟩ := List.exists_cons_of_ne_nil hne
  have hc : isSpace c = true := hb₁ c List.mem_cons_self
  have hpass := not_space_of_word hword
  have htrim : ltrim (b₀ ++ (word ++ (c :: b ++ rest)))
      = word ++ (c :: b ++ rest) := by
    rw [ltrim_blank hb₀]
    cases word with
    | nil => cases w <;> cases hword
    | cons x word =>
        refine List.dropWhile_cons_of_neg ?_
        simpa using hpass x List.mem_cons_self
  have hcommand : commandWord (b₀ ++ (word ++ (c :: b ++ rest))) = word := by
    rw [commandWord, htrim, List.takeWhile_append_of_pos hpass]
    simp [hc]
  have hafter : afterWord (b₀ ++ (word ++ (c :: b ++ rest)))
      = c :: b ++ rest := by
    rw [afterWord, htrim, List.dropWhile_append_of_pos hpass]
    simp [hc]
  constructor
  · rw [lineExec, lineWord, hcommand, find_word hword, hafter, ltrim_blank hb₁]
  · rw [hafter]
    exact List.cons_ne_nil _ _

end Word

theorem sendData_exec {cli cli' : Cli} {op : ClientOp}
    {tr : List (Event cliSig)} (h : (sendData cli op).Exec tr cli') :
    ∃ checked ok sent, tr = checked ++ sent
      ∧ (checkConnection cli).Exec checked (ok, cli')
      ∧ if ok then ∃ rc, sent = [⟨.finedb cli' op, rc⟩] else sent = [] := by
  rw [sendData, whenConnected, Prog.exec_bind] at h
  obtain ⟨checked, sent, ⟨ok, cli₁⟩, rfl, hcheck, hsent⟩ := h
  cases ok with
  | false =>
      obtain ⟨rfl, rfl⟩ := hsent
      exact ⟨checked, false, [], rfl, hcheck, rfl⟩
  | true =>
      obtain ⟨rc, rest, rfl, rfl, rfl⟩ := hsent
      exact ⟨checked, true, _, rfl, hcheck, rc, rfl⟩

/-- A run of one turn that checks the connection and, if the check
succeeds, calls `op` and nothing else. -/
def SendsOnce (cli : Cli) (op : ClientOp) (tr : List (Event cliSig))
    (r : Except Nat (Option Cli × Bytes)) : Prop :=
  ∃ checked ok cli' sent, tr = checked ++ sent
    ∧ (checkConnection cli).Exec checked (ok, cli')
    ∧ (if ok then ∃ rc, sent = [⟨.finedb cli' op, rc⟩] else sent = [])
    ∧ ∃ buf, r = .ok (some cli', buf)

section Quoted

variable {w : Line.CommandWord} {op : Bytes → Bytes → ClientOp}
  {word b₀ b₁ b₂ key data : Bytes}

theorem not_mem_blank {b : Bytes} (h : Blank b) : 0 ∉ b := fun h0 =>
  absurd (h 0 h0) (by decide)

theorem not_mem_quoted {s : Bytes} (h : 0 ∉ s) : 0 ∉ quoted s := by
  simp [quoted, h]

theorem commandSendData_quoted (cli : Cli) (hb₂ : Blank b₂)
    (hne₂ : b₂ ≠ []) (hkey : 0x22 ∉ key)
    (h : 0 ∉ quoted key ++ (b₂ ++ quoted data)) :
    commandSendData cli (quoted key ++ (b₂ ++ quoted data)) op
      = sendData cli (op key data) := by
  rw [commandSendData, quotedKey_quoted hkey h]
  simp only [quotedData_quoted hb₂ hne₂]

/-- What `main` makes of a line with a key and data in quotes. -/
theorem main_quoted (cli : Cli) (hw : w.sends = some op)
    (hword : word.map tolower = w.text) (hb₀ : Blank b₀) (hb₁ : Blank b₁)
    (hne₁ : b₁ ≠ []) (hb₂ : Blank b₂) (hne₂ : b₂ ≠ [])
    (hkey : 0x22 ∉ key) (hkey₀ : 0 ∉ key) (hdata₀ : 0 ∉ data) :
    ∃ buf, Line.main cli (b₀ ++ (word ++ (b₁ ++ (quoted key
        ++ (b₂ ++ quoted data)))) ++ [0])
      = outer (do return some (← sendData cli (op key data))) buf := by
  have harg : 0 ∉ quoted key ++ (b₂ ++ quoted data) := by
    simp only [List.mem_append, not_or]
    exact ⟨not_mem_quoted hkey₀, not_mem_blank hb₂, not_mem_quoted hdata₀⟩
  have hline : 0 ∉ b₀ ++ (word ++ (b₁ ++ (quoted key
      ++ (b₂ ++ quoted data)))) := by
    have hzero : 0 ∉ word :=
      not_mem_word hword (by decide) (by cases w <;> decide)
    simp only [List.mem_append, not_or] at harg ⊢
    exact ⟨not_mem_blank hb₀, hzero, not_mem_blank hb₁, harg⟩
  obtain ⟨hexec, hafter⟩ := lineExec_word cli hword hb₀ hb₁ hne₁
    (quoted key ++ (b₂ ++ quoted data))
  obtain ⟨buf, hmain⟩ := main_inside cli hline hafter
  refine ⟨buf, ?_⟩
  rw [hmain, hexec, ltrim_quoted,
    ← commandSendData_quoted cli hb₂ hne₂ hkey harg]
  cases w <;> cases hw <;> rfl

end Quoted

/-- Key and data come out of their quotes as they were put in, whatever
is in the data, with at least one blank in front of each. -/
theorem main_sends (cli : Cli) {w : Line.CommandWord}
    {op : Bytes → Bytes → ClientOp} (hw : w.sends = some op)
    {word : Bytes} (hword : word.map tolower = w.text)
    {b₀ b₁ b₂ : Bytes} (hb₀ : Blank b₀) (hb₁ : Blank b₁) (hne₁ : b₁ ≠ [])
    (hb₂ : Blank b₂) (hne₂ : b₂ ≠ []) {key data : Bytes}
    (hkey : 0x22 ∉ key) (hkey₀ : 0 ∉ key) (hdata₀ : 0 ∉ data)
    {tr : List (Event cliSig)} {r : Except Nat (Option Cli × Bytes)}
    (hrun : (Line.main cli (b₀ ++ (word ++ (b₁ ++ (quoted key
      ++ (b₂ ++ quoted data)))) ++ [0])).run.Exec tr r) :
    SendsOnce cli (op key data) tr r := by
  obtain ⟨buf, hmain⟩ := main_quoted cli hw hword hb₀ hb₁ hne₁ hb₂ hne₂
    hkey hkey₀ hdata₀
  rw [hmain, outer_run, bind_assoc, Prog.exec_bind] at hrun
  obtain ⟨tr, rest, cli', rfl, hsent, rfl, rfl⟩ := hrun
  rw [List.append_nil]
  obtain ⟨checked, ok, sent, rfl, hcheck, hcall⟩ := sendData_exec hsent
  exact ⟨checked, ok, cli', sent, rfl, hcheck, hcall, buf, rfl⟩

/-- `  Put "a b" "c"d"`, with the connection checked and found good. -/
theorem main_sends_put :
    ∃ buf, SendsOnce cliNew (.put [0x61, 0x20, 0x62] [0x63, 0x22, 0x64])
      [⟨.finedb cliNew .ping, .FINEDB_OK⟩,
        ⟨.finedb cliNew (.put [0x61, 0x20, 0x62] [0x63, 0x22, 0x64]),
          .FINEDB_OK⟩]
      (.ok (some cliNew, buf)) := by
  have hword : List.map tolower [0x50, 0x75, 0x74]
      = Line.CommandWord.put.text := by decide
  have hb₀ : Blank [0x20, 0x20] := by decide
  have hb : Blank [0x20] := by decide
  have hkey : (0x22 : Byte) ∉ [(0x61 : Byte), 0x20, 0x62] := by decide
  have hdata₀ : (0 : Byte) ∉ [(0x63 : Byte), 0x22, 0x64] := by decide
  obtain ⟨buf, hmain⟩ := main_quoted cliNew (w := .put) rfl hword hb₀ hb
    (by decide) hb (by decide) hkey (by decide) hdata₀
  refine ⟨buf, main_sends cliNew (w := .put) rfl hword hb₀ hb (by decide)
    hb (by decide) hkey (by decide) hdata₀ ?_⟩
  rw [hmain, outer_run]
  exact ⟨_, _, rfl, _, _, rfl, rfl, rfl⟩

/-- Without a blank in front of the key there is no command word `put`,
and nothing is called, the connection being good. -/
theorem put_without_blank :
    (checkConnection { cliNew with autocheck := false }).Exec []
        (true, { cliNew with autocheck := false })
      ∧ ∃ buf, (Line.main { cliNew with autocheck := false }
          ([] ++ ([0x70, 0x75, 0x74] ++ ([] ++ (quoted [0x6b]
            ++ ([0x20] ++ quoted [0x64])))) ++ [0])).run
        = .ret (.ok (some { cliNew with autocheck := false }, buf)) :=
  ⟨⟨rfl, rfl⟩, _, rfl⟩

end FineDB
