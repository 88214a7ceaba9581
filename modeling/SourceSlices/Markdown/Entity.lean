import SourceSlices.Text.Lines

/-!
Character references: the named ones of HTML, and numbers of characters.
-/
namespace SourceSlices.Markdown

/-- Names in order with the characters they stand for: the number of letters shared with the name
before, the other letters, and after a colon the characters in base 36. -/
def entityText : String :=
  "0AElig:5i 1MP:12 1acute:5d 1breve:76 1circ:5e 2y:sw 1fr:2kn8 1grave:5c 1lpha:pd 1macr:74
  1nd:8cz 1ogon:78 2pf:2koo 1pplyFunction:6e9 1ring:5h 1scr:2kkc 2sign:6s4 1tilde:5f 1uml:5g
  0Backslash:6qe 2rv:8h3 3wed:6x2 1cy:sx 1ecause:6r9 2rnoullis:6jw 2ta:pe 1fr:2kn9 1opf:2kop
  1reve:k8 1scr:6jw 1umpeq:6ry 0CHcy:tj 1OPY:4p 1acute:7a 2p:6vm 3italDifferentialD:6kl
  2yleys:6jx 1caron:7g 2edil:5j 2irc:7c 2onint:6r4 1dot:7e 1edilla:54 2nterDot:53 1fr:6jx
  1hi:pz 1ircleDot:6u1 6Minus:6ty 6Plus:6tx 6Times:6tz 1lockwiseContourIntegral:6r6
  3seCurlyDoubleQuote:6cd aQuote:6c9 1olon:6rb 5e:8dw 2ngruent:6sh 3int:6r3 3tourIntegral:6r2
  2pf:6iq 3roduct:6q8 2unterClockwiseContourIntegral:6r7 1ross:8bz 1scr:2kke 1up:6vn 3Cap:6rx
  0DD:6kl 2otrahd:841 1Jcy:si 1Scy:sl 1Zcy:sv 1agger:6ch 2rr:6n5 2shv:8h0 1caron:7i 2y:t0
  1el:6pz 3ta:pg 1fr:2knb 1iacriticalAcute:50 bDot:k9 dubleAcute:kd bGrave:2o bTilde:kc
  3mond:6v8 2fferentialD:6km 1opf:2kor 2t:4o 3Dot:6ho 3Equal:6s0 2ubleContourIntegral:6r3
  6Dot:4o 8wnArrow:6oj 6LeftArrow:6og aRightArrow:6ok aTee:8h0 7ongLeftArrow:7w8
  eRightArrow:7wa aRightArrow:7w9 6RightArrow:6oi bTee:6ug 6UpArrow:6oh 8DownArrow:6ol
  6VerticalBar:6qt 2wnArrow:6mr 9Bar:843 9UpArrow:6ph 4Breve:lt 4LeftRightVector:85s
  8TeeVector:866 8Vector:6nx eBar:85y 4RightTeeVector:867 9Vector:6o1 fBar:85z 4Tee:6uc
  7Arrow:6nb 4arrow:6oj 1scr:2kkf 2trok:7k 0ENG:96 1TH:5s 1acute:5l 1caron:7u 2irc:5m 2y:tp
  1dot:7q 1fr:2knc 1grave:5k 1lement:6q0 1macr:7m 2ptySmallSquare:7i3 5VerySmallSquare:7fv
  1ogon:7s 2pf:2kos 1psilon:ph 1qual:8dx 5Tilde:6rm 3ilibrium:6oc 1scr:6k0 2im:8dv 1ta:pj
  1uml:5n 1xists:6pv 2ponentialE:6kn 0Fcy:tg 1fr:2knd 1illedSmallSquare:7i4
  6VerySmallSquare:7fu 1opf:2kot 2rAll:6ps 2uriertrf:6k1 1scr:6k1 0GJcy:sj 1T:1q 1amma:pf
  5d:rg 1breve:7y 1cedil:82 2irc:7w 2y:sz 1dot:80 1fr:2kne 1g:6vt 1opf:2kou 1reaterEqual:6sl
  cLess:6vv 7FullEqual:6sn 7Greater:8f6 7Less:6t3 7SlantEqual:8e6 7Tilde:6sz 1scr:2kki 1t:6sr
  0HARDcy:tm 1acek:jr 2t:2m 1circ:84 1fr:6j0 1ilbertSpace:6iz 1opf:6j1 2rizontalLine:7b4
  1scr:6iz 2trok:86 1umpDownHump:6ry 4Equal:6rz 0IEcy:t1 1Jlig:8i 1Ocy:sh 1acute:5p 1circ:5q
  2y:t4 1dot:8g 1fr:6j5 1grave:5o 1m:6j5 2acr:8a 3ginaryI:6ko 2plies:6oi 1nt:6r0 3egral:6qz
  4rsection:6v6 2visibleComma:6eb 9Times:6ea 1ogon:8e 2pf:2kow 2ta:pl 1scr:6j4 1tilde:88
  1ukcy:sm 2ml:5r 0Jcirc:8k 2y:t5 1fr:2knh 1opf:2kox 1scr:2kkl 2ercy:so 1ukcy:sk 0KHcy:th
  1Jcy:ss 1appa:pm 1cedil:8m 2y:t6 1fr:2kni 1opf:2koy 1scr:2kkm 0LJcy:sp 1T:1o 1acute:8p
  2mbda:pn 2ng:7vu 2placetrf:6j6 2rr:6n2 1caron:8t 2edil:8r 2y:t7 1eftAngleBracket:7vs
  5rrow:6mo 9Bar:6p0 9RightArrow:6o6 4Ceiling:6x4 4DoubleBracket:7vq 6wnTeeVector:869
  8Vector:6o3 eBar:861 4Floor:6x6 4RightArrow:6ms 9Vector:85q 4Tee:6ub 7Arrow:6n8 7Vector:862
  5riangle:6uq cBar:89b cEqual:6us 4UpDownVector:85t 6TeeVector:868 6Vector:6nz cBar:860
  4Vector:6nw aBar:85u 4arrow:6og 4rightarrow:6ok 2ssEqualGreater:6vu 4FullEqual:6sm
  4Greater:6t2 4Less:8f5 4SlantEqual:8e5 4Tilde:6sy 1fr:2knj 1l:6vs 2eftarrow:6oq 1midot:8v
  1ongLeftArrow:7w5 8RightArrow:7w7 4RightArrow:7w6 4leftarrow:7w8 8rightarrow:7wa
  4rightarrow:7w9 2pf:2koz 2werLeftArrow:6mx 5RightArrow:6mw 1scr:6j6 2h:6nk 2trok:8x 1t:6sq
  0Map:83p 1cy:t8 1ediumSpace:6e7 2llintrf:6k3 1fr:2knk 1inusPlus:6qb 1opf:2kp0 1scr:6k3 1u:po
  0NJcy:sq 1acute:8z 1caron:93 2edil:91 2y:t9 1egativeMediumSpace:6bv 8ThickSpace:6bv
  bnSpace:6bv 8VeryThinSpace:6bv 2stedGreaterGreater:6sr 6LessLess:6sq 2wLine:a 1fr:2knl
  1oBreak:6e8 2nBreakingSpace:4g 2pf:6j9 2t:8h8 3Congruent:6si 4upCap:6st
  3DoubleVerticalBar:6qu 3Element:6q1 4qual:6sg 8Tilde:6rm+mw 4xists:6pw 3Greater:6sv
  aEqual:6sx aFullEqual:6sn+mw aGreater:6sr+mw aLess:6t5 aSlantEqual:8e6+mw aTilde:6t1
  3HumpDownHump:6ry+mw 7Equal:6rz+mw 3LeftTriangle:6wa fBar:89b+mw fEqual:6wc 5ss:6su
  7Equal:6sw 7Greater:6t4 7Less:6sq+mw 7SlantEqual:8e5+mw 7Tilde:6t0
  3NestedGreaterGreater:8f6+mw 9LessLess:8f5+mw 3Precedes:6tc bEqual:8fj+mw bSlantEqual:6w0
  3ReverseElement:6q4 4ightTriangle:6wb gBar:89c+mw gEqual:6wd 3SquareSubset:6tr+mw fEqual:6w2
  bperset:6ts+mw hEqual:6w3 4ubset:6te+6he 9Equal:6tk 5cceeds:6td bEqual:8fk+mw
  bSlantEqual:6w1 bTilde:6tb+mw 5perset:6tf+6he bEqual:6tl 3Tilde:6rl 8Equal:6ro
  8FullEqual:6rr 8Tilde:6rt 3VerticalBar:6qs 1scr:2kkp 1tilde:5t 1u:pp 0OElig:9e 1acute:5v
  1circ:5w 2y:ta 1dblac:9c 1fr:2knm 1grave:5u 1macr:98 2ega:q1 2icron:pr 1opf:2kp2
  1penCurlyDoubleQuote:6cc 9Quote:6c8 1r:8d0 1scr:2kkq 2lash:60 1tilde:5x 3mes:8c7 1uml:5y
  1verBar:6da 5race:732 8ket:71w 4Parenthesis:730 0PartialD:6pu 1cy:tb 1fr:2knn 1hi:py 1i:ps
  1lusMinus:4x 1oincareplane:6j0 2pf:6jd 1r:8fv 2ecedes:6t6 8Equal:8fj 8SlantEqual:6t8
  8Tilde:6ta 2ime:6cz 2oduct:6q7 3portion:6rb aal:6ql 1scr:2kkr 2i:q0 0QUOT:y 1fr:2kno
  1opf:6je 1scr:2kks 0RBarr:840 1EG:4u 1acute:9g 2ng:7vv 2rr:6n4 4tl:846 1caron:9k 2edil:9i
  2y:tc 1e:6jg 2verseElement:6q3 8quilibrium:6ob 7UpEquilibrium:86n 1fr:6jg 1ho:pt
  1ightAngleBracket:7vt 6rrow:6mq aBar:6p1 aLeftArrow:6o4 5Ceiling:6x5 5DoubleBracket:7vr
  7wnTeeVector:865 9Vector:6o2 fBar:85x 5Floor:6x7 5Tee:6ua 8Arrow:6na 8Vector:863
  6riangle:6ur dBar:89c dEqual:6ut 5UpDownVector:85r 7TeeVector:864 7Vector:6ny dBar:85w
  5Vector:6o0 bBar:85v 5arrow:6oi 1opf:6jh 2undImplies:86o 1rightarrow:6or 1scr:6jf 2h:6nl
  1uleDelayed:8ac 0SHCHcy:tl 2cy:tk 1OFTcy:to 1acute:9m 1c:8fw 2aron:9s 2edil:9q 2irc:9o 2y:td
  1fr:2knq 1hortDownArrow:6mr 5LeftArrow:6mo 5RightArrow:6mq 5UpArrow:6mp 1igma:pv
  1mallCircle:6qg 1opf:2kp6 1qrt:6qi 2uare:7fl 6Intersection:6tv 6Subset:6tr cEqual:6tt
  8perset:6ts eEqual:6tu 6Union:6tw 1scr:2kku 1tar:6va 1ub:6vk 3set:6vk 6Equal:6ti 2cceeds:6t7
  8Equal:8fk 8SlantEqual:6t9 8Tilde:6tb 3hThat:6q3 2m:6q9 2p:6vl 3erset:6tf 8Equal:6tj
  3set:6vl 0THORN:66 1RADE:6jm 1SHcy:sr 2cy:ti 1ab:9 2u:pw 1caron:9w 2edil:9u 2y:te 1fr:2knr
  1herefore:6r8 3ta:pk 2ickSpace:6e7+6bu 3nSpace:6bt 1ilde:6rg 5Equal:6rn 5FullEqual:6rp
  5Tilde:6rs 1opf:2kp7 1ripleDot:6hn 1scr:2kkv 2trok:9y 0Uacute:62 2rr:6n3 4ocir:85l 1brcy:su
  3eve:a4 1circ:63 2y:tf 1dblac:a8 1fr:2kns 1grave:61 1macr:a2 1nderBar:2n 6race:733 9ket:71x
  5Parenthesis:731 2ion:6v7 5Plus:6tq 1ogon:aa 2pf:2kp8 1pArrow:6mp 7Bar:842 7DownArrow:6o5
  2DownArrow:6mt 2Equilibrium:86m 2Tee:6ud 5Arrow:6n9 2arrow:6oh 2downarrow:6ol
  2perLeftArrow:6mu 5RightArrow:6mv 2si:r6 4lon:px 1ring:a6 1scr:2kkw 1tilde:a0 1uml:64
  0VDash:6uj 1bar:8h7 1cy:sy 1dash:6uh 5l:8h2 1ee:6v5 2rbar:6c6 3t:6c6 4icalBar:6qr 8Line:3g
  8Separator:7rs 8Tilde:6rk 3yThinSpace:6bu 1fr:2knt 1opf:2kp9 1scr:2kkx 1vdash:6ui 0Wcirc:ac
  1edge:6v4 1fr:2knu 1opf:2kpa 1scr:2kky 0Xfr:2knv 1i:pq 1opf:2kpb 1scr:2kkz 0YAcy:tr 1Icy:sn
  1Ucy:tq 1acute:65 1circ:ae 2y:tn 1fr:2knw 1opf:2kpc 1scr:2kl0 1uml:ag 0ZHcy:t2 1acute:ah
  1caron:al 2y:t3 1dot:aj 1eroWidthSpace:6bv 2ta:pi 1fr:6js 1opf:6jo 1scr:2kl1 0aacute:69
  1breve:77 1c:6ri 2E:6ri+mr 2d:6rj 2irc:6a 2ute:50 2y:ts 1elig:6e 1f:6e9 2r:2kny 1grave:68
  1lefsym:6k5 3ph:6k5 2pha:q9 1macr:75 3lg:8cf 2p:12 1nd:6qv 3and:8d1 3d:8d8 3slope:8d4 3v:8d6
  2g:6qo 3e:884 3le:6qo 3msd:6qp 6aa:888 7b:889 7c:88a 7d:88b 7e:88c 7f:88d 7g:88e 7h:88f
  3rt:6qn 5vb:6v2 7d:87x 3sph:6qq 4t:5h 3zarr:70c 1ogon:79 2pf:2kpe 1p:6rs 2E:8ds 2acir:8dr
  2e:6ru 2id:6rv 2os:13 2prox:6rs 6eq:6ru 1ring:6d 1scr:2kl2 2t:16 2ymp:6rs 5eq:6rx 1tilde:6b
  1uml:6c 1wconint:6r7 2int:8b5 0bNot:8h9 1ackcong:6rw 4epsilon:s6 4prime:6d1 4sim:6rh 7eq:6vh
  2rvee:6v1 3wed:6x1 6ge:6x1 1brk:71x 4tbrk:71y 1cong:6rw 2y:tt 1dquo:6ce 1ecaus:6r9 6e:6r9
  2mptyv:88g 2psi:s6 2rnou:6jw 2ta:qa 3h:6k6 3ween:6ss 1fr:2knz 1igcap:6v6 4irc:7hr 4up:6v7
  3odot:8ao 4plus:8ap 4times:8aq 3sqcup:8au 4tar:7id 3triangledown:7gd bup:7g3 3uplus:8as
  3vee:6v5 3wedge:6v4 1karow:83x 1lacklozenge:8a3 5square:7fu 5triangle:7g4 ddown:7ge
  dleft:7gi dright:7g8 3nk:74z 2k12:7f6 44:7f5 334:7f7 2ock:7ew 1ne:1p+6hx 3quiv:6sh+6hx
  2ot:6xc 1opf:2kpf 2t:6ud 3tom:6ud 2wtie:6vc 2xDL:7dj 4R:7dg 4l:7di 4r:7df 3H:7dc 4D:7dy
  4U:7e1 4d:7dw 4u:7dz 3UL:7dp 4R:7dm 4l:7do 4r:7dl 3V:7dd 4H:7e4 4L:7dv 4R:7ds 4h:7e3 4l:7du
  4r:7dr 3box:895 3dL:7dh 4R:7de 4l:7bk 4r:7bg 3h:7b4 4D:7dx 4U:7e0 4d:7cc 4u:7ck 3minus:6u7
  3plus:6u6 3times:6u8 3uL:7dn 4R:7dk 4l:7bs 4r:7bo 3v:7b6 4H:7e2 4L:7dt 4R:7dq 4h:7cs 4l:7c4
  4r:7bw 1prime:6d1 1reve:k8 2vbar:4m 1scr:2kl3 2emi:6dr 2im:6rh 4e:6vh 2ol:2k 4b:891
  4hsub:7uw 1ull:6ci 4et:6ci 2mp:6ry 4E:8fi 4e:6rz 5q:6rz 0cacute:7b 2p:6qx 3and:8ck
  3brcup:8cp 3cap:8cr 4up:8cn 3dot:8cg 3s:6qx+1e68 2ret:6dd 3on:jr 1caps:8ct 3ron:7h 2edil:6f
  2irc:7d 2ups:8cs 5sm:8cw 1dot:7f 1edil:54 2mptyv:88i 2nt:4i 4erdot:53 1fr:2ko0 1hcy:uf
  2eck:7pv 5mark:7pv 2i:qv 1ir:7gr 3E:88z 3c:jq 4eq:6s7 4learrowleft:6nu bright:6nv 6dR:4u
  7S:79k 7ast:6u3 7circ:6u2 7dash:6u5 3e:6s7 3fnint:8b4 3mid:8hb 3scir:88y 1lubs:7kz 5uit:7kz
  1olon:1m 5e:6s4 6q:6s4 2mma:18 5t:1s 3p:6pt 4fn:6qg 4lement:6pt 6xes:6iq 2ng:6rp 4dot:8dp
  3int:6r2 2pf:2kpg 3rod:6q8 3y:4p 4sr:6jb 1rarr:6np 2oss:7pz 1scr:2kl4 2ub:8gf 4e:8gh 3p:8gg
  4e:8gi 1tdot:6wf 1udarrl:854 6r:851 2epr:6vy 3sc:6vz 2larr:6nq 6p:859 2p:6qy 3brcap:8co
  3cap:8cm 4up:8cq 3dot:6tp 3or:8cl 3s:6qy+1e68 2rarr:6nr 6m:858 3lyeqprec:6vy 7succ:6vz
  5vee:6vi 5wedge:6vj 3ren:4k 3vearrowleft:6nq aright:6nr 2vee:6vi 2wed:6vj 1wconint:6r6
  2int:6r5 1ylcty:6y5 0dArr:6oj 1Har:86d 1agger:6cg 2leth:6k8 2rr:6mr 2sh:6c0 4v:6ub
  1bkarow:83z 2lac:kd 1caron:7j 2y:tw 1d:6km 2agger:6ch 3rr:6oa 2otseq:8dz 1eg:4w 2lta:qc
  2mptyv:88h 1fisht:873 2r:2ko1 1harl:6o3 4r:6o2 1iam:6v8 4ond:6v8 7suit:7l2 4s:7l2 2e:4o
  2gamma:rh 2sin:6wi 2v:6v 3ide:6v 6ontimes:6vb 3onx:6vb 1jcy:uq 1lcorn:6xq 3rop:6x9 1ollar:10
  2pf:2kph 2t:k9 3eq:6s0 5dot:6s1 3minus:6rc 3plus:6qc 3square:6u9 2ublebarwedge:6x2
  2wnarrow:6mr 4downarrows:6oa 4harpoonleft:6o3 bright:6o2 1rbkarow:840 2corn:6xr 3rop:6x8
  1scr:2kl5 3y:ut 2ol:8ae 2trok:7l 1tdot:6wh 2ri:7gf 4f:7ge 1uarr:6ph 2har:86n 1wangle:886
  1zcy:v3 2igrarr:7wf 0eDDot:8dz 2ot:6s1 1acute:6h 2ster:8dq 1caron:7v 2ir:6s6 4c:6i 2olon:6s5
  2y:ul 1dot:7r 1e:6kn 1fDot:6s2 2r:2ko2 1g:8ey 2rave:6g 2s:8eu 3dot:8ew 1l:8ex 2inters:73b
  2l:6j7 2s:8et 3dot:8ev 1macr:7n 2pty:6px 5set:6px 5v:6px 2sp:6bn 413:6bo 54:6bp 1ng:97
  2sp:6bm 1ogon:7t 2pf:2kpi 1par:6vp 4sl:89v 2lus:8dt 2si:qd 4lon:qd 4v:s5 1qcirc:6s6
  3olon:6s5 2sim:6rm 3lantgtr:8eu 7less:8et 2uals:1p 3est:6sf 3iv:6sh 5DD:8e0 2vparsl:89x
  1rDot:6s3 2arr:86p 1scr:6jz 2dot:6s0 2im:6rm 1ta:qf 2h:6o 1uml:6j 2ro:6gc 1xcl:x 2ist:6pv
  2pectation:6k0 3onentiale:6kn 0fallingdotseq:6s2 1cy:uc 1emale:7k0 1filig:1dkz 2lig:1dkw
  3lig:1dl0 2r:2ko3 1ilig:1dkx 1jlig:2u+2y 1lat:7l9 2lig:1dky 2tns:7g1 1nof:b6 1opf:2kpj
  2rall:6ps 3k:6vo 4v:8gp 1partint:8b1 1rac12:59 53:6kz 54:58 55:6l1 56:6l5 58:6l7 423:6l0
  55:6l2 434:5a 55:6l3 58:6l8 445:6l4 456:6l6 58:6l9 478:6la 3sl:6dg 2own:6xu 1scr:2kl7
  0gE:6sn 2l:8ek 1acute:dx 2mma:qb 5d:rh 2p:8ee 1breve:7z 1circ:7x 2y:tv 1dot:81 1e:6sl 2l:6vv
  2q:6sl 3q:6sn 3slant:8e6 2s:8e6 3cc:8fd 3dot:8e8 6o:8ea 7l:8ec 3l:6vv+1e68 4es:8es 1fr:2ko4
  1g:6sr 2g:6vt 1imel:6k7 1jcy:ur 1l:6t3 2E:8eq 2a:8f9 2j:8f8 1nE:6sp 2ap:8ei 4prox:8ei 2e:8eg
  3q:8eg 4q:6sp 2sim:6w7 1opf:2kpk 1rave:2o 1scr:6iy 2im:6sz 4e:8em 4l:8eo 1t:1q 2cc:8fb
  3ir:8e2 2dot:6vr 2lPar:87p 2quest:8e4 2rapprox:8ee 4rr:86w 3dot:6vr 3eqless:6vv 5qless:8ek
  3less:6t3 3sim:6sz 1vertneqq:6sp+1e68 2nE:6sp+1e68 0hArr:6ok 1airsp:6bu 2lf:59 2milt:6iz
  2rdcy:ui 3r:6ms 4cir:85k 4w:6nh 1bar:6j3 1circ:85 1earts:7l1 6uit:7l1 2llip:6cm 2rcon:6ux
  1fr:2ko5 1ksearow:84l 3warow:84m 1oarr:6pr 2mtht:6rf 2okleftarrow:6nd 4rightarrow:6ne
  2pf:2kpl 2rbar:6c5 1scr:2kl9 2lash:6j3 2trok:87 1ybull:6df 2phen:6c0 0iacute:6l 1c:6eb
  2irc:6m 2y:u0 1ecy:tx 2xcl:4h 1ff:6ok 2r:2ko6 1grave:6k 1i:6ko 2iint:8b0 3nt:6r1 2nfin:89o
  2ota:6jt 1jlig:8j 1macr:8b 3ge:6j5 4line:6j4 4part:6j5 3th:8h 2of:6uv 2ped:c5 1n:6q0
  2care:6it 2fin:6qm 5tie:89p 2odot:8h 2t:6qz 3cal:6uy 3egers:6jo 4rcal:6uy 3larhk:8bb
  3prod:8cc 1ocy:up 2gon:8f 2pf:2kpm 2ta:qh 1prod:8cc 1quest:5b 1scr:2kla 2in:6q0 4E:6wp
  4dot:6wl 4s:6wk 5v:6wj 4v:6q0 1t:6ea 2ilde:89 1ukcy:uu 2ml:6n 0jcirc:8l 2y:u1 1fr:2ko7
  1math:fr 1opf:2kpn 1scr:2klb 2ercy:uw 1ukcy:us 0kappa:qi 5v:s0 1cedil:8n 2y:u2 1fr:2ko8
  1green:8o 1hcy:ud 1jcy:v0 1opf:2kpo 1scr:2klc 0lAarr:6oq 2rr:6og 2tail:84b 1Barr:83y 1E:6sm
  2g:8ej 1Har:86a 1acute:8q 2emptyv:88k 2gran:6j6 2mbda:qj 2ng:7vs 4d:87l 4le:7vs 2p:8ed
  2quo:4r 2rr:6mo 4b:6p0 5fs:84f 4fs:84d 4hk:6nd 4lp:6nf 4pl:855 4sim:86r 4tl:6n6 2t:8ff
  3ail:849 3e:8fh 4s:8fh+1e68 1barr:83w 2brk:7si 2race:3f 5k:2j 3ke:87f 4sld:87j 6u:87h
  1caron:8u 2edil:8s 3il:6x4 2ub:3f 2y:u3 1dca:852 2quo:6cc 5r:6ce 2rdhar:86f 3ushar:85n
  2sh:6nm 1e:6sk 2ftarrow:6mo 9tail:6n6 4harpoondown:6nx bup:6nw 4leftarrows:6o7
  4rightarrow:6ms es:6o6 9harpoons:6ob 9squigarrow:6nh 4threetimes:6vf 2g:6vu 2q:6sk 3q:6sm
  3slant:8e5 2s:8e5 3cc:8fc 3dot:8e7 6o:8e9 7r:8eb 3g:6vu+1e68 4es:8er 3sapprox:8ed 4dot:6vq
  4eqgtr:6vu 6qgtr:8ej 4gtr:6t2 4sim:6sy 1fisht:870 2loor:6x6 2r:2ko9 1g:6t2 2E:8ep 1hard:6nx
  4u:6nw 5l:86i 2blk:7es 1jcy:ux 1l:6sq 2arr:6o7 2corner:6xq 2hard:86j 2tri:7i2 1midot:8w
  2oust:71s 6ache:71s 1nE:6so 2ap:8eh 4prox:8eh 2e:8ef 3q:8ef 4q:6so 2sim:6w6 1oang:7vw
  3rr:6pp 2brk:7vq 2ngleftarrow:7w5 8rightarrow:7w7 4mapsto:7wc 4rightarrow:7w6
  2oparrowleft:6nf 9right:6ng 2par:879 3f:2kpp 3lus:8bx 2times:8c4 2wast:6qf 3bar:2n 2z:7gq
  3enge:7gq 3f:8a3 1par:14 4lt:87n 1rarr:6o6 2corner:6xr 2har:6ob 5d:86l 2m:6by 2tri:6v3
  1saquo:6d5 2cr:2kld 2h:6nk 2im:6sy 4e:8el 4g:8en 2qb:2j 3uo:6c8 5r:6ca 2trok:8y 1t:1o
  2cc:8fa 3ir:8e1 2dot:6vq 2hree:6vf 2imes:6vd 2larr:86u 2quest:8e3 2rPar:87q 3i:7gj 4e:6us
  4f:7gi 1urdshar:85m 3uhar:86e 1vertneqq:6so+1e68 2nE:6so+1e68 0mDDot:6re 1acr:4v 2le:7k2
  3t:7q8 4ese:7q8 2p:6na 3sto:6na 6down:6nb 6left:6n8 6up:6n9 2rker:7fy 1comma:8bt 2y:u4
  1dash:6c4 1easuredangle:6qp 1fr:2koa 1ho:6jr 1icro:51 2d:6qr 3ast:16 3cir:8hc 3dot:53
  2nus:6qa 5b:6u7 5d:6rc 6u:8bu 1lcp:8gr 2dr:6cm 1nplus:6qb 1odels:6uf 2pf:2kpq 1p:6qb
  1scr:2kle 2tpos:6ri 1u:qk 2ltimap:6uw 2map:6uw 0nGg:6vt+mw 2t:6sr+6he 3v:6sr+mw
  1Leftarrow:6od 5rightarrow:6oe 2l:6vs+mw 2t:6sq+6he 3v:6sq+mw 1Rightarrow:6of 1VDash:6un
  2dash:6um 1abla:6pz 2cute:90 2ng:6qo+6he 2p:6rt 3E:8ds+mw 3id:6rv+mw 3os:95 3prox:6rt
  2tur:7la 5al:7la 7s:6j9 1bsp:4g 2ump:6ry+mw 5e:6rz+mw 1cap:8cj 3ron:94 2edil:92 2ong:6rr
  5dot:8dp+mw 2up:8ci 2y:u5 1dash:6c3 1e:6sg 2Arr:6on 2arhk:84k 4r:6mv 5ow:6mv 2dot:6s0+mw
  2quiv:6si 2sear:84o 3im:6rm+mw 2xist:6pw 6s:6pw 1fr:2kob 1gE:6sn+mw 2e:6sx 3q:6sx 4q:6sn+mw
  4slant:8e6+mw 3s:8e6+mw 2sim:6t1 2t:6sv 3r:6sv 1hArr:6oe 2arr:6ni 2par:8he 1i:6q3 2s:6ws
  3d:6wq 2v:6q3 1jcy:uy 1lArr:6od 2E:6sm+mw 2arr:6my 2dr:6cl 2e:6sw 3ftarrow:6my
  5rightarrow:6ni 3q:6sw 4q:6sm+mw 4slant:8e5+mw 3s:8e5+mw 4s:6su 2sim:6t0 2t:6su 3ri:6wa
  5e:6wc 1mid:6qs 1opf:2kpr 2t:4s 3in:6q1 5E:6wp+mw 5dot:6wl+mw 5va:6q1 6b:6wn 6c:6wm 3ni:6q4
  5va:6q4 6b:6wu 6c:6wt 1par:6qu 4allel:6qu 4sl:8hp+6hx 4t:6pu+mw 2olint:8b8 2r:6tc 3cue:6w0
  3e:8fj+mw 4c:6tc 5eq:8fj+mw 1rArr:6of 2arr:6mz 5c:84z+mw 5w:6n1+mw 2ightarrow:6mz 2tri:6wb
  5e:6wd 1sc:6td 3cue:6w1 3e:8fk+mw 3r:2klf 2hortmid:6qs 6parallel:6qu 2im:6rl 4e:6ro 5q:6ro
  2mid:6qs 2par:6qu 2qsube:6w2 5pe:6w3 2ub:6tg 4E:8g5+mw 4e:6tk 4set:6te+6he 7eq:6tk 9q:8g5+mw
  3cc:6td 5eq:8fk+mw 3p:6th 4E:8g6+mw 4e:6tl 4set:6tf+6he 7eq:6tl 9q:8g6+mw 1tgl:6t5 2ilde:6p
  2lg:6t4 2riangleleft:6wa deq:6wc 9right:6wb eeq:6wd 1u:ql 2m:z 3ero:6ja 3sp:6br 1vDash:6ul
  2Harr:83o 2ap:6rx+6he 2dash:6uk 2ge:6sl+6he 3t:1q+6he 2infin:89q 2lArr:83m 3e:6sk+6he
  3t:1o+6he 4rie:6us+6he 2rArr:83n 3trie:6ut+6he 2sim:6rg+6he 1wArr:6om 2arhk:84j 4r:6mu
  5ow:6mu 2near:84n 0oS:79k 1acute:6r 2st:6u3 1cir:6u2 4c:6s 2y:u6 1dash:6u5 2blac:9d 2iv:8c8
  2ot:6u1 2sold:88s 1elig:9f 1fcir:88v 2r:2koc 1gon:kb 2rave:6q 2t:88x 1hbar:88l 2m:q1
  1int:6r2 1larr:6nu 2cir:88u 3ross:88r 2ine:6da 2t:88w 1macr:99 2ega:qx 2icron:qn 3d:88m
  3nus:6ty 1opf:2kps 1par:88n 2erp:88p 2lus:6tx 1r:6qw 2arr:6nv 2d:8d9 3er:6k4 5of:6k4 3f:4q
  3m:56 2igof:6uu 2or:8d2 2slope:8d3 2v:8d7 1scr:6k4 2lash:6w 2ol:6u0 1tilde:6t 3mes:6tz
  6as:8c6 1uml:6u 1vbar:6yl 0par:6qt 3a:52 4llel:6qt 3sim:8hf 4l:8hp 3t:6pu 1cy:u7 1ercnt:11
  3iod:1a 3mil:6cw 3p:6ud 3tenk:6cx 1fr:2kod 1hi:qu 3v:r9 2mmat:6k3 2one:7im 1i:qo
  2tchfork:6vo 2v:ra 1lanck:6j3 6h:6j2 4kv:6j3 2us:17 4acir:8bn 4b:6u6 4cir:8bm 4do:6qc 5u:8bp
  4e:8du 4mn:4x 4sim:8bq 4two:8br 1m:4x 1ointint:8b9 2pf:2kpt 2und:4j 1r:6t6 2E:8fn 2ap:8fr
  2cue:6t8 2e:8fj 3c:6t6 4approx:8fr 4curlyeq:6t8 4eq:8fj 4napprox:8ft 5eqq:8fp 5sim:6w8
  4sim:6ta 2ime:6cy 5s:6jd 2nE:8fp 3ap:8ft 3sim:6w8 2od:6q7 3falar:6y6 4line:6xe 4surf:6xf
  3p:6ql 4to:6ql 2sim:6ta 2urel:6uo 1scr:2klh 2i:qw 1uncsp:6bs 0qfr:2koe 1int:8b0 1opf:2kpu
  1prime:6dz 1scr:2kli 1uaternions:6j1 4int:8ba 2est:1r 5eq:6sf 2ot:y 0rAarr:6or 2rr:6oi
  2tail:84c 1Barr:83z 1Har:86c 1ace:6rh+mp 3ute:9h 2dic:6qi 2emptyv:88j 2ng:7vt 4d:87m 4e:885
  4le:7vt 2quo:57 2rr:6mq 4ap:86t 4b:6p1 5fs:84g 4c:84z 4fs:84e 4hk:6ne 4lp:6ng 4pl:85h
  4sim:86s 4tl:6n7 4w:6n1 2tail:84a 3io:6ra 5nals:6je 1barr:83x 2brk:7sj 2race:3h 5k:2l
  3ke:87g 4sld:87i 6u:87k 1caron:9l 2edil:9j 3il:6x5 2ub:3h 2y:u8 1dca:853 2ldhar:86h 2quo:6cd
  5r:6cd 2sh:6nn 1eal:6jg 4ine:6jf 4part:6jg 4s:6jh 2ct:7fx 2g:4u 1fisht:871 2loor:6x7 2r:2kof
  1hard:6o1 4u:6o0 5l:86k 2o:qp 3v:s1 1ightarrow:6mq atail:6n7 5harpoondown:6o1 cup:6o0
  5leftarrows:6o4 9harpoons:6oc 5rightarrows:6o9 5squigarrow:6n1 5threetimes:6vg 2ng:ka
  2singdotseq:6s3 1larr:6o4 2har:6oc 2m:6bz 1moust:71t 6ache:71t 1nmid:8ha 1oang:7vx 3rr:6pq
  2brk:7vr 2par:87a 3f:2kpv 3lus:8by 2times:8c5 1par:15 4gt:87o 2polint:8b6 1rarr:6o9
  1saquo:6d6 2cr:2klj 2h:6nl 2qb:2l 3uo:6c9 5r:6c9 1three:6vg 2imes:6ve 2ri:7g9 4e:6ut 4f:7g8
  4ltri:89a 1uluhar:86g 1x:6ji 0sacute:9n 1bquo:6ca 1c:6t7 2E:8fo 2ap:8fs 3ron:9t 2cue:6t9
  2e:8fk 3dil:9r 2irc:9p 2nE:8fq 3ap:8fu 3sim:6w9 2polint:8b7 2sim:6tb 2y:u9 1dot:6v9 4b:6u9
  4e:8di 1eArr:6oo 2arhk:84l 4r:6mw 5ow:6mw 2ct:4n 2mi:1n 2swar:84p 2tminus:6qe 4n:6qe 2xt:7qu
  1fr:2kog 3own:6xu 1harp:7lb 2chcy:uh 3y:ug 2ortmid:6qr 5parallel:6qt 2y:4t 1igma:qr 5f:qq
  5v:qq 2m:6rg 3dot:8dm 3e:6rn 4q:6rn 3g:8f2 4E:8f4 3l:8f1 4E:8f3 3ne:6rq 3plus:8bo 3rarr:86q
  1larr:6mo 1mallsetminus:6qe 3shp:8c3 2eparsl:89w 2id:6qr 3le:6xv 2t:8fe 3e:8fg 4s:8fg+1e68
  1oftcy:uk 2l:1b 3b:890 4ar:6yn 2pf:2kpw 1pades:7kw 6uit:7kw 3r:6qt 1qcap:6tv 5s:6tv+1e68
  3up:6tw 5s:6tw+1e68 2sub:6tr 5e:6tt 5set:6tr 8eq:6tt 4p:6ts 5e:6tu 5set:6ts 8eq:6tu 2u:7fl
  3are:7fl 5f:7fu 3f:7fu 1rarr:6mq 1scr:2klk 2etmn:6qe 2mile:6xv 2tarf:6va 1tar:7ie 4f:7id
  2raightepsilon:s5 8phi:r9 3ns:4v 1ub:6te 3E:8g5 3dot:8fx 3e:6ti 4dot:8g3 3mult:8g1 3nE:8gb
  4e:6tm 3plus:8fz 3rarr:86x 3set:6te 6eq:6ti 8q:8g5 6neq:6tm 9q:8gb 4im:8g7 4ub:8gl 5p:8gj
  2cc:6t7 4approx:8fs 4curlyeq:6t9 4eq:8fk 4napprox:8fu 5eqq:8fq 5sim:6w9 4sim:6tb 2m:6q9
  2ng:7l6 2p:6tf 31:55 32:4y 33:4z 3E:8g6 3dot:8fy 4sub:8go 3e:6tj 4dot:8g4 3hsol:7ux 5ub:8gn
  3larr:86z 3mult:8g2 3nE:8gc 4e:6tn 3plus:8g0 3set:6tf 6eq:6tj 8q:8g6 6neq:6tn 9q:8gc 4im:8g8
  4ub:8gk 5p:8gm 1wArr:6op 2arhk:84m 4r:6mx 5ow:6mx 2nwar:84q 1zlig:67 0target:6xi 2u:qs
  1brk:71w 1caron:9x 2edil:9v 2y:ua 1dot:6hn 1elrec:6xh 1fr:2koh 1here4:6r8 5fore:6r8 3ta:qg
  5sym:r5 5v:r5 2ickapprox:6rs 5sim:6rg 3nsp:6bt 2kap:6rs 3sim:6rg 2orn:72 1ilde:kc 2mes:5z
  5b:6u8 6ar:8c1 5d:8c0 2nt:6r1 1oea:84o 2p:6uc 3bot:6ye 3cir:8hd 3f:2kpx 4ork:8gq 2sa:84p
  1prime:6d0 1rade:6jm 2iangle:7g5 8down:7gf 8left:7gj ceq:6us 8q:6sc 8right:7g9 deq:6ut
  3dot:7ho 3e:6sc 3minus:8ca 3plus:8c9 3sb:899 3time:8cb 2pezium:736 1scr:2kll 3y:ue 2hcy:uz
  2trok:9z 1wixt:6ss 2oheadleftarrow:6n2 7rightarrow:6n4 0uArr:6oh 1Har:86b 1acute:6y 2rr:6mp
  1brcy:v2 3eve:a5 1circ:6z 2y:ub 1darr:6o5 2blac:a9 2har:86m 1fisht:872 2r:2koi 1grave:6x
  1harl:6nz 4r:6ny 2blk:7eo 1lcorn:6xo 6er:6xo 3rop:6xb 2tri:7i0 1macr:a3 2l:4o 1ogon:ab
  2pf:2kpy 1parrow:6mp 2downarrow:6mt 2harpoonleft:6nz 9right:6ny 2lus:6tq 2si:qt 4h:r6
  4lon:qt 2uparrows:6o8 1rcorn:6xp 6er:6xp 3rop:6xa 2ing:a7 2tri:7i1 1scr:2klm 1tdot:6wg
  2ilde:a1 2ri:7g5 4f:7g4 1uarr:6o8 2ml:70 1wangle:887 0vArr:6ol 1Bar:8h4 4v:8h5 1Dash:6ug
  1angrt:87w 2repsilon:s5 3kappa:s0 3nothing:6px 3phi:r9 4i:ra 4ropto:6ql 3r:6mt 4ho:s1
  3sigma:qq 4ubsetneq:6tm+1e68 cq:8gb+1e68 5psetneq:6tn+1e68 cq:8gc+1e68 3theta:r5
  4riangleleft:6uq bright:6ur 1cy:tu 1dash:6ua 1ee:6qw 3bar:6uz 3eq:6sa 2llip:6we 2rbar:3g
  3t:3g 1fr:2koj 1ltri:6uq 1nsub:6te+6he 4p:6tf+6he 1opf:2kpz 1prop:6ql 1rtri:6ur 1scr:2kln
  2ubnE:8gb+1e68 5e:6tm+1e68 3pnE:8gc+1e68 5e:6tn+1e68 1zigzag:87u 0wcirc:ad 1edbar:8db
  3ge:6qv 5q:6s9 2ierp:6jc 1fr:2kok 1opf:2kq0 1p:6jc 1r:6rk 2eath:6rk 1scr:2klo 0xcap:6v6
  2irc:7hr 2up:6v7 1dtri:7gd 1fr:2kol 1hArr:7wa 2arr:7w7 1i:qm 1lArr:7w8 2arr:7w5 1map:7wc
  1nis:6wr 1odot:8ao 2pf:2kq1 3lus:8ap 2time:8aq 1rArr:7w9 2arr:7w6 1scr:2klp 2qcup:8au
  1uplus:8as 2tri:7g3 1vee:6v5 1wedge:6v4 0yacute:71 3y:un 1circ:af 2y:uj 1en:4l 1fr:2kom
  1icy:uv 1opf:2kq2 1scr:2klq 1ucy:um 2ml:73 0zacute:ai 1caron:am 2y:tz 1dot:ak 1eetrf:6js
  2ta:qe 1fr:2kon 1hcy:ty 1igrarr:6ot 1opf:2kq3 1scr:2klr 1wj:6bx 2nj:6bw"

def number36 (cs : List Char) : Nat := cs.foldl (fun n c => n * 36 + Text.digit36 c) 0

/-- One entry, given the name before it. -/
def entityOf (before : List Char) (entry : List Char) : List Char × List Char :=
  let (name, codes) := entry.span (· ≠ ':')
  let shared := Text.digit36 (name.headD '0')
  (before.take shared ++ name.drop 1,
    (Text.splitOn '+' (codes.drop 1)).map fun code => Char.ofNat (number36 code))

def entitiesFrom (before : List Char) : List (List Char) → List (List Char × List Char)
  | [] => []
  | entry :: rest =>
    let e := entityOf before entry
    e :: entitiesFrom e.1 rest

/-- All named references. -/
def entities : List (List Char × List Char) :=
  entitiesFrom [] (Text.words entityText.toList)

/-- Digits at the beginning, at most a number of them, and their value. -/
def digitsAt (base : Nat) (value : Char → Option Nat) : Nat → List Char → Nat × Nat × List Char
  | 0, cs => (0, 0, cs)
  | _ + 1, [] => (0, 0, [])
  | n + 1, c :: cs =>
    match value c with
    | none => (0, 0, c :: cs)
    | some d =>
      let (count, rest, tail) := digitsAt base value n cs
      (count + 1, d * Nat.pow base count + rest, tail)

def decimalValue (c : Char) : Option Nat := if c.isDigit then some (c.toNat - 48) else none

def hexValue (c : Char) : Option Nat :=
  if c.isDigit then some (c.toNat - 48)
  else if 'a' ≤ c && c ≤ 'f' then some (c.toNat - 87)
  else if 'A' ≤ c && c ≤ 'F' then some (c.toNat - 55) else none

/-- The character with a number; zero stands for the replacement character. -/
def charOfNumber? (n : Nat) : Option Char :=
  let n := if n = 0 then 0xfffd else n
  if n.isValidChar then some (Char.ofNat n) else none

/-- What follows an ampersand as a reference: the characters meant, and the rest of the text. -/
def entity? (cs : List Char) : Option (List Char × List Char) :=
  let numbered (found : Nat × Nat × List Char) : Option (List Char × List Char) :=
    match found with
    | (count, n, ';' :: rest) =>
      if count = 0 then none else (charOfNumber? n).map fun c => ([c], rest)
    | _ => none
  match cs with
  | '#' :: 'x' :: rest => numbered (digitsAt 16 hexValue 6 rest)
  | '#' :: 'X' :: rest => numbered (digitsAt 16 hexValue 6 rest)
  | '#' :: rest => numbered (digitsAt 10 decimalValue 7 rest)
  | _ =>
    let (name, rest) := cs.span Char.isAlphanum
    match rest with
    | ';' :: rest => (entities.find? (·.1 == name)).map fun e => (e.2, rest)
    | _ => none

/-- Text with references resolved and backslashes before signs removed. -/
def unescape : Nat → List Char → List Char
  | 0, cs => cs
  | _ + 1, [] => []
  | fuel + 1, '\\' :: c :: cs =>
    if Text.isAsciiPunctuation c then c :: unescape fuel cs else '\\' :: unescape fuel (c :: cs)
  | fuel + 1, '&' :: cs =>
    match entity? cs with
    | some (meant, rest) => meant ++ unescape fuel rest
    | none => '&' :: unescape fuel cs
  | fuel + 1, c :: cs => c :: unescape fuel cs

end SourceSlices.Markdown
