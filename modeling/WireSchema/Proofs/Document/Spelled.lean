import WireSchema.Proofs.Document.Derivation
import WireSchema.Proofs.Token.Tiling
set_option autoImplicit false

namespace WireSchema

namespace Token

open Text (byte)

def isNameByte (c : UInt8) : Bool := isWordByte c || c == byte '-'

def isName (t : Text) : Bool := t.all isNameByte

theorem isNameByte_of_start {c : UInt8} (h : isWordStart c = true) : isNameByte c = true := by
  simp [isNameByte,isWordByte,h]

theorem isName_take_run (rest : Text) : isName (rest.take (run isWordByte rest)) = true := by
  refine List.all_eq_true.mpr fun c hc => ?_
  rw [isNameByte,of_mem_take_run hc,Bool.true_or]

theorem isName_wordTail {c : UInt8} {rest : Text} {n : Nat} (h : wordTail? c rest = some n) :
    isName (c :: rest.take n) = true := by
  unfold wordTail? at h
  split at h
  · rename_i hminus
    cases rest with
    | nil => cases h
    | cons d more =>
      simp only at h
      split at h
      · rename_i hd
        cases h
        have hsign : isNameByte c = true := by rw [isNameByte,hminus,Bool.or_true]
        have htail := isName_take_run more
        rw [isName] at htail
        rw [Nat.add_comm,List.take_succ_cons,isName,List.all_cons,List.all_cons,hsign,
          isNameByte_of_start hd,htail]
        rfl
      · cases h
  · split at h
    · rename_i hc
      cases h
      have htail := isName_take_run rest
      rw [isName] at htail
      rw [isName,List.all_cons,isNameByte_of_start hc,htail]
      rfl
    · cases h

theorem isName_lexeme (c : UInt8) (rest : Text) :
    (lexeme c rest).1 = .ident → isName (c :: rest.take (lexeme c rest).2) = true := by
  unfold lexeme
  split
  · simp
  · split
    · simp
    · split
      · simp
      · split
        · rename_i n hword
          exact fun _ => isName_wordTail hword
        · split
          · simp
          · split <;> simp

theorem isName_scan {offset : UInt32} {src : Text} {t : Token} (ht : t ∈ scan offset src)
    (hk : t.kind = .ident) : isName t.text = true := by
  induction offset, src using scan.induct with
  | case1 offset =>
    simp only [scan,List.mem_singleton] at ht
    subst ht
    cases hk
  | case2 offset c rest n h ih =>
    rw [scan_comment h] at ht
    exact ih ht
  | case3 offset c rest h n ih =>
    rw [scan_lexeme h] at ht
    rcases List.mem_cons.mp ht with rfl | ht
    · exact isName_lexeme c rest hk
    · exact ih ht

end Token

namespace Document

namespace Grammar

open Token (isName)

/-- All words in front are made of the bytes of words. -/
def Spelled (ts : List Token) : Prop := ∀ t ∈ ts, isIdent t = true → isName t.text = true

section Spelled

variable {ts rest : List Token}

theorem spelled_ofSource (src : Text) : Spelled (Token.ofSource src) := by
  intro t ht hident
  exact Token.isName_scan (List.mem_of_mem_filter ht) (by simpa [isIdent] using hident)

theorem Spelled.behind (h : Spelled ts) (hrest : Takes ts rest) : Spelled rest := by
  obtain ⟨taken,rfl,-⟩ := hrest
  exact fun t ht => h t (List.mem_append_right taken ht)

theorem Spelled.tail {t : Token} (h : Spelled (t :: ts)) : Spelled ts :=
  fun u hu => h u (List.mem_cons_of_mem t hu)

theorem Name.spelled {name : Ident} (h : Name ts name rest) (hs : Spelled ts) :
    isName name.text = true ∧ Spelled rest := by
  obtain ⟨hfit⟩ := h
  exact ⟨hs _ List.mem_cons_self hfit,hs.tail⟩

theorem Optional.spelled {α : Type} {first : Token → Bool} {part : Part α}
    (hpart : ∀ {ts a rest}, part ts a rest → Spelled ts → Spelled rest) {o : Option α}
    (h : Optional first part ts o rest) (hs : Spelled ts) : Spelled rest := by
  cases h with
  | present _ taken => exact hpart taken hs
  | absent => exact hs

theorem Many.spelled {α : Type} {first : Token → Bool} {part : Part α} (good : α → Prop)
    (hpart : ∀ {ts a rest}, part ts a rest → Spelled ts → good a ∧ Spelled rest) {as : List α}
    (h : Many first part ts as rest) (hs : Spelled ts) : (∀ a ∈ as, good a) ∧ Spelled rest := by
  induction h with
  | nil => exact ⟨by simp,hs⟩
  | cons _ taken _ ih =>
    obtain ⟨hgood,hmid⟩ := hpart taken hs
    obtain ⟨hmore,hrest⟩ := ih hmid
    exact ⟨List.forall_mem_cons.mpr ⟨hgood,hmore⟩,hrest⟩

def anywhere : Place := ⟨⟨.eof,[],0⟩,[]⟩

theorem anywhere_stops : anywhere.stop.kind = .eof := rfl

theorem spelled_bracketed {option : Option Ident}
    (h : Optional (Token.isOperator "<") Bracketed ts option rest) (hs : Spelled ts) :
    Spelled rest :=
  hs.behind ((reads_bracketed anywhere_stops []).takes h)

theorem PropertyAt.spelled {p : Property} (h : PropertyAt ts p rest) (hs : Spelled ts) :
    isName p.name.text = true ∧ Spelled rest := by
  refine ⟨?_,hs.behind ((reads_property anywhere_stops).takes h)⟩
  obtain ⟨hbegun,-⟩ := h
  cases hbegun with
  | flagged hword _ hoption htype hname =>
    have hbehind := spelled_bracketed hoption (hword.spelled hs).2
    exact (hname.spelled (htype.spelled hbehind).2).1
  | plain htype hoption hname =>
    have hbehind := spelled_bracketed hoption (htype.spelled hs).2
    exact (hname.spelled hbehind).1

theorem ClassAt.spelled {c : Class} (h : ClassAt ts c rest) (hs : Spelled ts) :
    ∀ p ∈ c.properties, isName p.name.text = true := by
  obtain ⟨-,hname,hidentity,hparent,hremoved,hblock⟩ := h
  have hnamed := (hname.spelled hs.tail).2
  have htagged := spelled_bracketed hidentity hnamed
  have hheaded := hparent.spelled (fun hbehind hs => by
    obtain ⟨-,hname⟩ := hbehind
    exact (hname.spelled hs.tail).2) htagged
  have hgone := hheaded.behind ((reads_marker anywhere_stops "removed").takes hremoved)
  obtain ⟨-,hmembers,-,-⟩ := hblock
  exact (hmembers.spelled (fun p => isName p.name.text = true) PropertyAt.spelled hgone.tail).1

def SpelledItem (item : Parser.Item) : Prop :=
  ∀ c, item = .decl (.class c) → ∀ p ∈ c.properties, isName p.name.text = true

theorem ItemAt.spelled {item : Parser.Item} (h : ItemAt ts item rest) (hs : Spelled ts) :
    SpelledItem item ∧ Spelled rest := by
  refine ⟨?_,hs.behind ((loop_items anywhere_stops).takes h)⟩
  rintro c rfl
  cases h with
  | «class» taken => exact taken.spelled hs

end Spelled

end Grammar

theorem spelled_of_parse {src : Text} {doc : Document} (h : parse src = .ok doc) :
    ∀ c, .class c ∈ doc.decls → ∀ p ∈ c.properties, Token.isName p.name.text = true := by
  obtain ⟨items,hitems,rfl⟩ := (ofTokens_ok_iff_derives src doc).mp h
  obtain ⟨hspelled,-⟩ :=
    hitems.spelled Grammar.SpelledItem Grammar.ItemAt.spelled (Grammar.spelled_ofSource src)
  intro c hc
  obtain ⟨item,hitem,hdecl⟩ := List.mem_filterMap.mp hc
  cases item with
  | directive d => cases hdecl
  | decl d =>
    cases hdecl
    exact hspelled _ hitem c rfl

end Document

end WireSchema
