import WireSchema.Proofs.Token.Lines
set_option autoImplicit false

namespace WireSchema.Token

open Text (byte)

def stop (t : Token) : Nat := t.offset.toNat + t.text.length

/-- A line comment, from its slashes to the end of the line or of the source. -/
structure Comment (src : Text) (start stop : Nat) : Prop where
  opened : (src.drop start).take 2 = [byte '/',byte '/']
  within : start + 2 ≤ stop ∧ stop ≤ src.length
  line : ∀ c ∈ (src.drop start).take (stop - start), isLineEnd c = false
  ended : ∀ c, src[stop]? = some c → isLineEnd c = true

/-- A string stands between quotes on one line and is not empty. -/
structure Quotation (text : Text) : Prop where
  length : 3 ≤ text.length
  first : text.head? = some (byte '"')
  last : text.getLast? = some (byte '"')
  line : ∀ c ∈ text, isLineEnd c = false

/-- A directive is its mark and a word of letters. -/
def Marked (text : Text) : Prop :=
  ∃ letters, text = byte '#' :: letters ∧ ∀ c ∈ letters, Text.isLetter c = true

section Lexeme

variable {p : UInt8 → Bool} {c : UInt8} {rest : Text} {n : Nat}

theorem take_run (p : UInt8 → Bool) (t : Text) : t.take (run p t) = t.takeWhile p := by
  induction t with
  | nil => rfl
  | cons c t ih =>
    cases hc : p c with
    | true => simpa [run,hc] using ih
    | false => simp [run,hc]

theorem of_mem_take_run {t : Text} (h : c ∈ t.take (run p t)) : p c = true := by
  rw [take_run] at h
  exact List.mem_takeWhile_imp h

theorem of_getElem?_run {t : Text} (h : t[run p t]? = some c) : p c = false := by
  induction t with
  | nil => simp at h
  | cons d t ih =>
    cases hd : p d with
    | true =>
      have hrun : run p (d :: t) = run p t + 1 := by simp [run,hd]
      rw [hrun,List.getElem?_cons_succ] at h
      exact ih h
    | false =>
      have hrun : run p (d :: t) = 0 := by simp [run,hd]
      rw [hrun,List.getElem?_cons_zero] at h
      cases h
      exact hd

theorem commentTail?_some (h : commentTail? c rest = some n) :
    c = byte '/' ∧ ∃ more, rest = byte '/' :: more ∧ n = 1 + run (fun b => !isLineEnd b) more := by
  cases rest with
  | nil => simp [commentTail?] at h
  | cons d more =>
    simp only [commentTail?] at h
    split at h
    · rename_i hslash
      simp only [Bool.and_eq_true,beq_iff_eq] at hslash
      cases h
      exact ⟨hslash.1,more,by rw [hslash.2],rfl⟩
    · simp at h

theorem comment_of_tail (h : commentTail? c rest = some n) (front : Text) :
    Comment (front ++ c :: rest) front.length (front.length + (n + 1)) := by
  obtain ⟨rfl,more,rfl,rfl⟩ := commentTail?_some h
  have hle := run_le (fun b => !isLineEnd b) more
  refine ⟨by simp,?_,?_,?_⟩
  · simp only [List.length_append,List.length_cons]
    omega
  · intro c hc
    have hsize : front.length + (1 + run (fun b => !isLineEnd b) more + 1) - front.length =
        run (fun b => !isLineEnd b) more + 1 + 1 := by omega
    rw [List.drop_left,hsize,List.take_succ_cons,List.take_succ_cons] at hc
    rcases List.mem_cons.mp hc with rfl | hc
    · decide
    rcases List.mem_cons.mp hc with rfl | hc
    · decide
    · simpa using of_mem_take_run hc
  · intro c hc
    have hindex : front.length + (1 + run (fun b => !isLineEnd b) more + 1) - front.length =
        run (fun b => !isLineEnd b) more + 1 + 1 := by omega
    rw [List.getElem?_append_right (by omega),hindex,List.getElem?_cons_succ,
      List.getElem?_cons_succ] at hc
    simpa using of_getElem?_run hc

theorem lexeme_kind (c : UInt8) (rest : Text) :
    (lexeme c rest).1 ≠ .eof ∧
    ((lexeme c rest).1 = .string →
      c = byte '"' ∧ stringTail? rest = some (lexeme c rest).2) ∧
    ((lexeme c rest).1 = .directive →
      c = byte '#' ∧ (lexeme c rest).2 = run Text.isLetter rest) := by
  unfold lexeme
  split
  · simp
  · split
    · simp
    · split
      · rename_i n hn
        split at hn
        · rename_i hquote
          exact ⟨by simp,fun _ => ⟨by simpa using hquote,hn⟩,by simp⟩
        · simp at hn
      · split
        · simp
        · split
          · rename_i hmark
            exact ⟨by simp,by simp,fun _ => ⟨by simpa using hmark,rfl⟩⟩
          · split <;> simp

theorem quotation_of_tail (h : stringTail? rest = some n) :
    Quotation (byte '"' :: rest.take n) := by
  cases rest with
  | nil => simp [stringTail?] at h
  | cons first more =>
    simp only [stringTail?] at h
    split at h
    · simp at h
    · rename_i hfirst
      split at h
      · rename_i hclosed
        cases h
        have hend : more[run (fun c => c != byte '"' && !isLineEnd c) more]? = some (byte '"') := by
          simpa [List.head?_drop] using hclosed
        have htext : (first :: more).take (run (fun c => c != byte '"' && !isLineEnd c) more + 2) =
            first :: more.take (run (fun c => c != byte '"' && !isLineEnd c) more) ++
              [byte '"'] := by
          rw [List.take_succ_cons,List.take_add_one,hend]
          rfl
        rw [htext]
        refine ⟨by simp,rfl,by simp [List.getLast?_cons],?_⟩
        intro c hc
        simp only [List.mem_cons,List.cons_append,List.mem_append,List.not_mem_nil,or_false] at hc
        rcases hc with rfl | rfl | hc | rfl
        · decide
        · simpa using hfirst
        · have hbody := of_mem_take_run hc
          simp only [Bool.and_eq_true,Bool.not_eq_true'] at hbody
          exact hbody.2
        · decide
      · simp at h

end Lexeme

/-- From an offset on, a source is one comment or token after the other, up to its end. -/
inductive Tiled (src : Text) : Nat → List Token → Prop
  | done {t : Token} (kind : t.kind = .eof) (text : t.text = [])
      (offset : t.offset.toNat = src.length) :
      Tiled src src.length [t]
  | comment {start stop : Nat} {ts : List Token} (comment : Comment src start stop)
      (rest : Tiled src stop ts) : Tiled src start ts
  | token {t : Token} {ts : List Token} (kind : t.kind ≠ .eof) (filled : t.text ≠ [])
      (text : t.text = (src.drop t.offset.toNat).take t.text.length) (within : t.stop ≤ src.length)
      (string : t.kind = .string → Quotation t.text)
      (directive : t.kind = .directive → Marked t.text)
      (rest : Tiled src t.stop ts) : Tiled src t.offset.toNat (t :: ts)

theorem split_behind (front : Text) (c : UInt8) {rest : Text} {n : Nat} (h : n ≤ rest.length) :
    front ++ c :: rest = front ++ c :: rest.take n ++ rest.drop n ∧
      (front ++ c :: rest.take n).length = front.length + (n + 1) := by
  refine ⟨by simp,?_⟩
  simp only [List.length_append,List.length_cons,List.length_take]
  omega

theorem scan_tiled {offset : UInt32} {back : Text} (front : Text)
    (hsrc : (front ++ back).length < 2 ^ 32) (hoffset : offset.toNat = front.length) :
    Tiled (front ++ back) front.length (scan offset back) := by
  induction offset, back using scan.induct generalizing front with
  | case1 offset =>
    rw [List.append_nil,scan]
    exact .done rfl rfl hoffset
  | case2 offset c rest n h ih =>
    obtain ⟨hsplit,hlength⟩ := split_behind front c (commentTail?_le h)
    have hnext : (offset + (n + 1).toUInt32).toNat = front.length + (n + 1) := by
      have hle := commentTail?_le h
      simp only [List.length_append,List.length_cons] at hsrc
      rw [toNat_add_toUInt32 (by omega),hoffset]
    have hrest := ih (front ++ c :: rest.take n) (hsplit ▸ hsrc) (hnext.trans hlength.symm)
    rw [← hsplit,hlength] at hrest
    rw [scan_comment h]
    exact .comment (comment_of_tail h front) hrest
  | case3 offset c rest h n ih =>
    have hle : n ≤ rest.length := lexeme_le c rest
    obtain ⟨hsplit,hlength⟩ := split_behind front c hle
    have hnext : (offset + (n + 1).toUInt32).toNat = front.length + (n + 1) := by
      simp only [List.length_append,List.length_cons] at hsrc
      rw [toNat_add_toUInt32 (by omega),hoffset]
    have hrest := ih (front ++ c :: rest.take n) (hsplit ▸ hsrc) (hnext.trans hlength.symm)
    rw [← hsplit,hlength] at hrest
    have htext : (c :: rest.take n).length = n + 1 := by
      simp only [List.length_cons,List.length_take]
      omega
    have hstop : stop ⟨(lexeme c rest).1,c :: rest.take n,offset⟩ = front.length + (n + 1) := by
      rw [stop,hoffset,htext]
    obtain ⟨hkind,hstring,hdirective⟩ := lexeme_kind c rest
    rw [scan_lexeme h,← hoffset]
    refine .token hkind (List.cons_ne_nil _ _) ?_ ?_ ?_ ?_ (hstop ▸ hrest)
    · simp [hoffset,Nat.min_eq_left hle]
    · rw [hstop,List.length_append,List.length_cons]
      omega
    · intro hk
      obtain ⟨rfl,htail⟩ := hstring hk
      exact quotation_of_tail htail
    · intro hk
      obtain ⟨rfl,hrun⟩ := hdirective hk
      have hn : n = run Text.isLetter rest := hrun
      exact ⟨_,rfl,fun d hd => of_mem_take_run (hn ▸ hd)⟩

section Tiled

variable {src : Text} {start : Nat} {ts : List Token}

theorem Tiled.ends (h : Tiled src start ts) : ∃ front last, ts = front ++ [last] ∧
    (∀ t ∈ front, t.kind ≠ .eof ∧ t.text ≠ []) ∧
    last.kind = .eof ∧ last.text = [] ∧ last.offset.toNat = src.length := by
  induction h with
  | @done t kind text offset => exact ⟨[],t,rfl,by simp,kind,text,offset⟩
  | comment _ _ ih => exact ih
  | @token t ts kind filled _ _ _ _ _ ih =>
    obtain ⟨front,last,rfl,hfront,hlast⟩ := ih
    refine ⟨t :: front,last,rfl,?_,hlast⟩
    intro s hs
    rcases List.mem_cons.mp hs with rfl | hs
    · exact ⟨kind,filled⟩
    · exact hfront s hs

theorem Tiled.start_le (h : Tiled src start ts) : ∀ t ∈ ts, start ≤ t.offset.toNat := by
  induction h with
  | done _ _ offset =>
    intro t ht
    rw [List.mem_singleton.mp ht]
    omega
  | comment comment _ ih =>
    intro t ht
    have hback := ih t ht
    have hwithin := comment.within
    omega
  | @token t ts _ _ _ _ _ _ _ ih =>
    intro s hs
    rcases List.mem_cons.mp hs with rfl | hs
    · exact le_refl _
    · have hback := ih s hs
      rw [stop] at hback
      omega

theorem Tiled.ordered (h : Tiled src start ts) :
    ts.Pairwise fun a b => a.offset < b.offset ∧ a.stop ≤ b.offset.toNat := by
  induction h with
  | done _ _ _ => exact List.pairwise_singleton _ _
  | comment _ _ ih => exact ih
  | @token t ts _ filled _ _ _ _ rest ih =>
    refine List.pairwise_cons.mpr ⟨?_,ih⟩
    intro s hs
    have hback := rest.start_le s hs
    have hpos := List.length_pos_iff.mpr filled
    rw [UInt32.lt_iff_toNat_lt]
    exact ⟨by rw [stop] at hback; omega,hback⟩

theorem Tiled.token_of_mem (h : Tiled src start ts) {t : Token} (ht : t ∈ ts) :
    (t.stop ≤ src.length ∧ t.text = (src.drop t.offset.toNat).take t.text.length) ∧
      (t.kind = .string → Quotation t.text) ∧ (t.kind = .directive → Marked t.text) := by
  induction h with
  | done kind text offset =>
    rw [List.mem_singleton.mp ht]
    simp [stop,kind,text,offset]
  | comment _ _ ih => exact ih ht
  | token _ _ text within string directive _ ih =>
    rcases List.mem_cons.mp ht with rfl | ht
    · exact ⟨⟨within,text⟩,string,directive⟩
    · exact ih ht

theorem Comment.not_again {start stop next : Nat} (h : Comment src start stop) :
    ¬ Comment src stop next := by
  intro hnext
  have hlt : stop < src.length := by
    have hwithin := hnext.within
    omega
  have hhead : src[stop]? = some (byte '/') := by
    have hopened := congrArg List.head? hnext.opened
    simpa [List.head?_take,List.head?_drop] using hopened
  exact absurd (h.ended _ hhead) (by decide)

theorem Tiled.covered (h : Tiled src start ts) {i : Nat} (hi : start ≤ i) (hlt : i < src.length) :
    (∃ t ∈ ts, t.offset.toNat ≤ i ∧ i < t.stop) ∨
      ∃ first last, Comment src first last ∧ first ≤ i ∧ i < last ∧
        (first = start ∨ ∃ t ∈ ts, t.stop = first) := by
  induction h with
  | done _ _ _ => omega
  | @comment start stop ts comment _ ih =>
    by_cases hin : i < stop
    · exact .inr ⟨start,stop,comment,hi,hin,.inl rfl⟩
    · rcases ih (by omega) with hcovered | ⟨first,last,hcomment,hfirst,hlast,rfl | hbehind⟩
      · exact .inl hcovered
      · exact absurd hcomment comment.not_again
      · exact .inr ⟨first,last,hcomment,hfirst,hlast,.inr hbehind⟩
  | @token t ts _ _ _ _ _ _ _ ih =>
    by_cases hin : i < t.stop
    · exact .inl ⟨t,by simp,hi,hin⟩
    · rcases ih (by omega) with ⟨s,hs,hcovered⟩ | ⟨first,last,hcomment,hfirst,hlast,hstart⟩
      · exact .inl ⟨s,by simp [hs],hcovered⟩
      · refine .inr ⟨first,last,hcomment,hfirst,hlast,.inr ?_⟩
        rcases hstart with rfl | ⟨s,hs,hstop⟩
        · exact ⟨t,by simp,rfl⟩
        · exact ⟨s,by simp [hs],hstop⟩

end Tiled

/-- Reading a source ends at its end and neither loses nor invents anything: its tokens follow each
other as they stand in it, and what is between them is comments. -/
theorem scan_tiles {src : Text} (h : src.length < 2 ^ 32) :
    (∃ front last, scan 0 src = front ++ [last] ∧ (∀ t ∈ front, t.kind ≠ .eof ∧ t.text ≠ []) ∧
      last.kind = .eof ∧ last.text = [] ∧ last.offset.toNat = src.length ∧
      ofSource src = front.filter fun t => t.kind != .space) ∧
    (scan 0 src).Pairwise (fun a b => a.offset < b.offset ∧ a.stop ≤ b.offset.toNat) ∧
    (∀ t ∈ scan 0 src, t.stop ≤ src.length ∧
      t.text = (src.drop t.offset.toNat).take t.text.length) ∧
    (∀ i < src.length, (∃ t ∈ scan 0 src, t.offset.toNat ≤ i ∧ i < t.stop) ∨
      ∃ first last, Comment src first last ∧ first ≤ i ∧ i < last ∧
        (first = 0 ∨ ∃ t ∈ scan 0 src, t.stop = first)) ∧
    (∀ t ∈ scan 0 src, t.kind = .string → Quotation t.text) ∧
    ∀ t ∈ scan 0 src, t.kind = .directive → Marked t.text := by
  have htiled : Tiled src 0 (scan 0 src) := scan_tiled [] h rfl
  obtain ⟨front,last,hscan,hfront,hkind,htext,hoffset⟩ := htiled.ends
  refine ⟨⟨front,last,hscan,hfront,hkind,htext,hoffset,?_⟩,htiled.ordered,
    fun t ht => (htiled.token_of_mem ht).1,fun i hi => htiled.covered (Nat.zero_le i) hi,
    fun t ht => (htiled.token_of_mem ht).2.1,fun t ht => (htiled.token_of_mem ht).2.2⟩
  have hsolid : ∀ t ∈ front, (t.kind != .space && t.kind != .eof) = (t.kind != .space) := by
    intro t ht
    simp [(hfront t ht).1]
  rw [ofSource,hscan,List.filter_append,List.filter_congr hsolid]
  simp [hkind]

def remark : Text := Text.ofString "\"a\"//b #c\r#d"

theorem remark_tiles : remark.length < 2 ^ 32 ∧
    (scan 0 remark).Pairwise (fun a b => a.offset < b.offset ∧ a.stop ≤ b.offset.toNat) ∧
    ((∃ t ∈ scan 0 remark, t.offset.toNat ≤ 5 ∧ 5 < t.stop) ∨
      ∃ first last, Comment remark first last ∧ first ≤ 5 ∧ 5 < last ∧
        (first = 0 ∨ ∃ t ∈ scan 0 remark, t.stop = first)) := by
  have hlength : remark.length < 2 ^ 32 := by decide +kernel
  obtain ⟨-,hordered,-,hcovered,-⟩ := scan_tiles hlength
  exact ⟨hlength,hordered,hcovered 5 (by decide +kernel)⟩

end WireSchema.Token
