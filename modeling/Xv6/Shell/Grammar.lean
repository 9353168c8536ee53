import Xv6.Shell.Lexer

/-!
# The grammar of the shell

The command that a sequence of tokens derives:

    line  ::= pipe '&'* [';' line]
    pipe  ::= exec ['|' pipe]
    exec  ::= '(' line ')' redir* | redir* (word redir*)*
    redir ::= ('<' | '>' | '>>') word
-/

namespace Xv6.Shell

inductive Redirs : List Token → List Redir → Prop
  | nil : Redirs [] []
  | lt (w : Span) {ts : List Token} {rs : List Redir} (h : Redirs ts rs) :
      Redirs (.lt :: .word w :: ts) ({ file := w, mode := O_RDONLY, fd := 0 } :: rs)
  | gt (w : Span) {ts : List Token} {rs : List Redir} (h : Redirs ts rs) :
      Redirs (.gt :: .word w :: ts)
        ({ file := w, mode := O_WRONLY ||| O_CREATE ||| O_TRUNC, fd := 1 } :: rs)
  | app (w : Span) {ts : List Token} {rs : List Redir} (h : Redirs ts rs) :
      Redirs (.app :: .word w :: ts) ({ file := w, mode := O_WRONLY ||| O_CREATE, fd := 1 } :: rs)

inductive Args : List Token → List Span → List Redir → Prop
  | nil : Args [] [] []
  | word (w : Span) {ts us : List Token} {rs qs : List Redir} {ws : List Span}
      (hr : Redirs ts rs) (ha : Args us ws qs) : Args (.word w :: (ts ++ us)) (w :: ws) (rs ++ qs)

inductive Sym
  | line
  | pipe
  | exec

def backs : Nat → Cmd → Cmd
  | 0, cmd => cmd
  | k + 1, cmd => backs k (.back cmd)

/-- The tokens derive from the symbol, and the derivation gives the command. -/
inductive Derives : Sym → List Token → Cmd → Prop
  | block {ts us : List Token} {cmd : Cmd} {rs : List Redir} (hl : Derives .line ts cmd)
      (hr : Redirs us rs) : Derives .exec (.lpar :: (ts ++ .rpar :: us)) (wrap cmd rs)
  | simple {ts us : List Token} {ws : List Span} {rs qs : List Redir} (hr : Redirs ts rs)
      (ha : Args us ws qs) (hn : ws.length < MAXARGS) :
      Derives .exec (ts ++ us) (wrap (.exec ws) (rs ++ qs))
  | one {ts : List Token} {cmd : Cmd} (h : Derives .exec ts cmd) : Derives .pipe ts cmd
  | pipe {ts us : List Token} {left right : Cmd} (hl : Derives .exec ts left)
      (hr : Derives .pipe us right) : Derives .pipe (ts ++ .pipe :: us) (.pipe left right)
  | last {ts : List Token} {cmd : Cmd} (k : Nat) (h : Derives .pipe ts cmd) :
      Derives .line (ts ++ List.replicate k .amp) (backs k cmd)
  | list {ts us : List Token} {left right : Cmd} (k : Nat) (hl : Derives .pipe ts left)
      (hr : Derives .line us right) :
      Derives .line (ts ++ List.replicate k .amp ++ .semi :: us) (.list (backs k left) right)

end Xv6.Shell
